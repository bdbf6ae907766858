import Mathlib.Data.List.Perm.Subperm
import UnitDB.Source.LinearHash

/-!
# Blocks, chains and walks of the linear-hash index

What the operations of `db.go`'s index do to the blocks they read, stated once:

* a block is packed when its occupied slots are its first ones: the scans stop at the first
  free slot, and `put`, `del` and the entry writer keep it so (`Block.occupied_set`,
  `Block.occupied_fill`, `Block.occupied_del`);
* a chain is a list of blocks each pointing to the next (`Linked`) and each stored where it
  is (`HashDB.Stored`); `forEachBlock` over a chain it can walk to the end is a fold over the
  list that stops where the callback says (`forEachBlock_of_linked`), and writes elsewhere
  keep a chain stored (`Stored.congr`);
* the slot found by the scan of a packed block is an occupied one, the first free one, or
  none when all slots are occupied (`findIdx?_stops`).
-/

namespace UnitDB.Source.LinearHash

/-! ## Packed blocks -/

namespace Block

/-- The slots the scans of `Get`, `Has`, `Delete` and `split` look at: those before the first
free one. -/
def occupied (b : Block) : List Slot := b.entries.takeWhile (·.kvOffset ≠ 0)

/-- No occupied slot after a free one. -/
def Packed (b : Block) : Prop := ∀ sl ∈ b.entries.dropWhile (·.kvOffset ≠ 0), sl.kvOffset = 0

@[simp] theorem set_next (b : Block) (i : Nat) (sl : Slot) : (b.set i sl).next = b.next := rfl

@[simp] theorem set_entries (b : Block) (i : Nat) (sl : Slot) : (b.set i sl).entries = b.entries.set i sl := rfl

@[simp] theorem setNext_next (b : Block) (next : Int) : (b.setNext next).next = next := rfl

@[simp] theorem setNext_occupied (b : Block) (next : Int) : (b.setNext next).occupied = b.occupied := rfl

@[simp] theorem del_next (b : Block) (i : Nat) : (b.del i).next = b.next := by
  unfold del; split <;> rfl

@[simp] theorem zero_next : zero.next = 0 := rfl

theorem setNext_packed {b : Block} (hp : b.Packed) (next : Int) : (b.setNext next).Packed := hp

/-- A block laid out as the occupied slots `occ` then the free slots `fr`. -/
theorem occupied_of_layout {b : Block} {occ fr : List Slot} (h : b.entries = occ ++ fr)
    (used : ∀ sl ∈ occ, sl.kvOffset ≠ 0) (free : ∀ sl ∈ fr, sl.kvOffset = 0) : b.occupied = occ ∧ b.Packed := by
  have used' : ∀ sl ∈ occ, decide (sl.kvOffset ≠ 0) = true := fun sl m => decide_eq_true (used sl m)
  have head : fr.takeWhile (·.kvOffset ≠ 0) = [] ∧ fr.dropWhile (·.kvOffset ≠ 0) = fr := by
    cases fr with
    | nil => simp
    | cons sl fr => simp [free sl (List.mem_cons_self _ _)]
  unfold occupied Packed
  rw [h, List.takeWhile_append_of_pos used', List.dropWhile_append_of_pos used', head.1, head.2, List.append_nil]
  exact ⟨rfl, free⟩

theorem used_of_mem_occupied {b : Block} {sl : Slot} (m : sl ∈ b.occupied) : sl.kvOffset ≠ 0 :=
  of_decide_eq_true (List.mem_takeWhile_imp (p := fun x : Slot => decide (x.kvOffset ≠ 0)) m)

/-- A packed block is its occupied slots, then free slots. -/
theorem layout_of_packed {b : Block} (hp : b.Packed) :
    ∃ fr, b.entries = b.occupied ++ fr ∧ (∀ sl ∈ b.occupied, sl.kvOffset ≠ 0) ∧ ∀ sl ∈ fr, sl.kvOffset = 0 :=
  ⟨_, (List.takeWhile_append_dropWhile _ _).symm, fun _ => used_of_mem_occupied, hp⟩

theorem occupied_length_le (b : Block) : b.occupied.length ≤ entriesPerBlock :=
  b.full ▸ List.IsPrefix.length_le (List.takeWhile_prefix _)

theorem zero_occupied : zero.occupied = [] ∧ zero.Packed :=
  occupied_of_layout (show zero.entries = [] ++ zero.entries from rfl) (by simp) (by simp [zero, Slot.free])

/-- The slot at an index below the occupied ones is that occupied slot. -/
theorem slot_of_lt {b : Block} (hp : b.Packed) {i : Nat} (hi : i < b.occupied.length) :
    b.slot i = b.occupied[i] := by
  obtain ⟨fr, h, -⟩ := layout_of_packed hp
  rw [slot, List.getD_eq_getElem?_getD, h, List.getElem?_append_left hi, List.getElem?_eq_getElem hi,
    Option.getD_some]

/-- The slot after the occupied ones is free. -/
theorem slot_occupied_length {b : Block} (hp : b.Packed) : (b.slot b.occupied.length).kvOffset = 0 := by
  obtain ⟨fr, h, -, free⟩ := layout_of_packed hp
  rw [slot, List.getD_eq_getElem?_getD, h, List.getElem?_append_right (le_refl _), Nat.sub_self]
  cases fr with
  | nil => rfl
  | cons x fr => simpa using free x (List.mem_cons_self _ _)

/-- `b.entries[i] = sl` on an occupied slot. -/
theorem occupied_set {b : Block} (hp : b.Packed) {i : Nat} (hi : i < b.occupied.length) {sl : Slot}
    (used : sl.kvOffset ≠ 0) : (b.set i sl).occupied = b.occupied.set i sl ∧ (b.set i sl).Packed := by
  obtain ⟨fr, h, occ, free⟩ := layout_of_packed hp
  refine occupied_of_layout (by rw [set_entries, h, List.set_append_left _ _ hi]) (fun x m => ?_) free
  obtain ⟨j, hj, rfl⟩ := List.getElem_of_mem m
  rw [List.getElem_set]
  split
  · exact used
  · exact occ _ (List.getElem_mem _)

/-- `b.entries[i] = sl` on the first free slot. -/
theorem occupied_fill {b : Block} (hp : b.Packed) (room : b.occupied.length < entriesPerBlock) {sl : Slot}
    (used : sl.kvOffset ≠ 0) :
    (b.set b.occupied.length sl).occupied = b.occupied ++ [sl] ∧ (b.set b.occupied.length sl).Packed := by
  obtain ⟨fr, h, occ, free⟩ := layout_of_packed hp
  cases fr with
  | nil =>
    have := b.full
    rw [h, List.append_nil] at this
    omega
  | cons x fr =>
    have h' : (b.set b.occupied.length sl).entries = (b.occupied ++ [sl]) ++ fr := by
      rw [set_entries, h, List.set_append_right _ _ (le_refl _), Nat.sub_self, List.set_cons_zero,
        List.append_assoc, List.singleton_append]
    exact occupied_of_layout h' (by simpa [or_imp, forall_and] using And.intro occ used)
      (fun y m => free y (List.mem_cons_of_mem _ m))

/-- The first slot of a new block. -/
theorem zero_set_occupied {sl : Slot} (used : sl.kvOffset ≠ 0) : (zero.set 0 sl).occupied = [sl] ∧ (zero.set 0 sl).Packed := by
  simpa [zero_occupied.1] using occupied_fill zero_occupied.2 (by rw [zero_occupied.1]; decide) used

/-- `del(i)` on an occupied slot. -/
theorem occupied_del {b : Block} (hp : b.Packed) {i : Nat} (hi : i < b.occupied.length) :
    (b.del i).occupied = b.occupied.eraseIdx i ∧ (b.del i).Packed := by
  obtain ⟨fr, h, occ, free⟩ := layout_of_packed hp
  have lt : i < entriesPerBlock := lt_of_lt_of_le hi (occupied_length_le b)
  have h' : (b.del i).entries = b.occupied.eraseIdx i ++ (fr ++ [.free]) := by
    simp only [del, dif_pos lt]
    rw [h, List.eraseIdx_append_of_lt_length hi, List.append_assoc]
  exact occupied_of_layout h' (fun x m => occ x (List.mem_of_mem_eraseIdx m))
    (by simpa [Slot.free, or_imp, forall_and] using free)

/-- The scan of a packed block for a slot where the loops stop, which every free slot is: the
first occupied slot where they stop, else the first free slot, else none. -/
theorem findIdx?_stops {b : Block} (hp : b.Packed) {q : Slot → Bool} (hq : ∀ sl, sl.kvOffset = 0 → q sl = true) :
    b.entries.findIdx? q =
      (b.occupied.findIdx? q).or (if b.occupied.length < entriesPerBlock then some b.occupied.length else none) := by
  obtain ⟨fr, h, -, free⟩ := layout_of_packed hp
  have total := b.full
  rw [h, List.length_append] at total
  rw [h, List.findIdx?_append]
  congr 1
  cases fr with
  | nil => simp [show b.occupied.length = entriesPerBlock by simpa using total]
  | cons x fr =>
    simp only [List.length_cons] at total
    simp [hq x (free x (List.mem_cons_self _ _)), show b.occupied.length < entriesPerBlock by omega]

/-- A slot where the scan of a packed block stops that is occupied comes before the first free
one. -/
theorem lt_of_findIdx?_used {b : Block} (hp : b.Packed) {q : Slot → Bool} (hq : ∀ sl, sl.kvOffset = 0 → q sl = true)
    {j : Nat} (hit : b.entries.findIdx? q = some j) (used : (b.slot j).kvOffset ≠ 0) : j < b.occupied.length := by
  rw [findIdx?_stops hp hq] at hit
  cases ho : b.occupied.findIdx? q with
  | some j' =>
    rw [ho] at hit
    exact (Option.some.inj hit) ▸ (List.findIdx?_eq_some_iff_findIdx_eq.mp ho).1
  | none =>
    rw [ho, Option.none_or] at hit
    split at hit
    · cases hit
      exact absurd (slot_occupied_length hp) used
    · cases hit

/-- A free slot where the scan of a packed block stops is the first free one. -/
theorem eq_of_findIdx?_free {b : Block} (hp : b.Packed) {q : Slot → Bool} (hq : ∀ sl, sl.kvOffset = 0 → q sl = true)
    {j : Nat} (hit : b.entries.findIdx? q = some j) (free : (b.slot j).kvOffset = 0) :
    j = b.occupied.length ∧ j < entriesPerBlock := by
  rw [findIdx?_stops hp hq] at hit
  cases ho : b.occupied.findIdx? q with
  | some j' =>
    rw [ho] at hit
    have lt := (Option.some.inj hit) ▸ (List.findIdx?_eq_some_iff_findIdx_eq.mp ho).1
    rw [slot_of_lt hp lt] at free
    exact absurd free (used_of_mem_occupied (List.getElem_mem _))
  | none =>
    rw [ho, Option.none_or] at hit
    split at hit
    · cases hit
      exact ⟨rfl, ‹_›⟩
    · cases hit

end Block

/-! ## The slot loops -/

/-- The slot where a loop that stops at every free slot stops, if it is occupied, is one of the
occupied slots. -/
theorem Block.slot_mem_occupied {b : Block} {q : Slot → Bool} (hq : ∀ sl, sl.kvOffset = 0 → q sl = true) {i : Nat}
    (hit : b.entries.findIdx? q = some i) (used : (b.slot i).kvOffset ≠ 0) : b.slot i ∈ b.occupied := by
  obtain ⟨lt, -, before⟩ := List.findIdx?_eq_some_iff_getElem.mp hit
  have slot : b.slot i = b.entries[i] := by
    rw [Block.slot, List.getD_eq_getElem?_getD, List.getElem?_eq_getElem lt, Option.getD_some]
  rw [slot] at used ⊢
  have front : ∀ x ∈ b.entries.take (i + 1), decide (x.kvOffset ≠ 0) = true := by
    intro x m
    obtain ⟨k, hk, rfl⟩ := List.getElem_of_mem m
    rw [List.length_take] at hk
    rw [List.getElem_take]
    rcases Nat.lt_or_ge k i with lt' | ge
    · exact decide_eq_true fun free => by simpa [hq _ free] using before k lt'
    · obtain rfl : k = i := by omega
      exact decide_eq_true used
  have mem : b.entries[i] ∈ b.entries.take (i + 1) := by
    have hk : i < (b.entries.take (i + 1)).length := by rw [List.length_take]; omega
    simpa [List.getElem_take] using List.getElem_mem hk
  have whole : (b.entries.take (i + 1) ++ b.entries.drop (i + 1)).takeWhile (fun x => decide (x.kvOffset ≠ 0)) =
      b.entries.take (i + 1) ++ (b.entries.drop (i + 1)).takeWhile (fun x => decide (x.kvOffset ≠ 0)) :=
    List.takeWhile_append_of_pos front
  rw [List.take_append_drop] at whole
  unfold Block.occupied
  rw [whole]
  exact List.mem_append_left _ mem

/-- A scan fails only at an occupied slot whose key cannot be read. -/
theorem scanBlock_failed {read : Slot → Option Bytes} {h : UInt32} {key : Bytes} {b : Block}
    (hf : scanBlock read h key b = .failed) : ∃ x ∈ b.occupied, read x = none := by
  unfold scanBlock at hf
  split at hf
  · cases hf
  · rename_i i hit
    split at hf
    · cases hf
    · split at hf
      · cases hf
      · exact ⟨_, Block.slot_mem_occupied (fun sl free => by simp [Stops, free]) hit ‹_›,
          Option.not_isSome_iff_eq_none.mp ‹_›⟩

/-! ## The directory -/

theorem shl1_toNat {k : Nat} (hk : k < 32) : (shl1 k).toNat = 2 ^ k :=
  Nat.mod_eq_of_lt (Nat.pow_lt_pow_right (by decide) hk)

theorem shl1_sub_one_toNat {k : Nat} (hk : k ≤ 32) : (shl1 k - 1).toNat = 2 ^ k - 1 := by
  rcases Nat.lt_or_eq_of_le hk with lt | rfl
  · have one : 1 ≤ (shl1 k).toNat := shl1_toNat lt ▸ Nat.one_le_two_pow
    rw [UInt32.toNat_sub_of_le _ _ one, shl1_toNat lt]
    rfl
  · rfl

/-- `hash & ((1 << k) - 1)` keeps the low `k` bits, `1 << 32` being 0 on `uint32`. -/
theorem and_mask_toNat (h : UInt32) {k : Nat} (hk : k ≤ 32) : (h &&& (shl1 k - 1)).toNat = h.toNat % 2 ^ k := by
  show h.toNat &&& (shl1 k - 1).toNat = _
  rw [shl1_sub_one_toNat hk, Nat.and_pow_two_sub_one_eq_mod]

/-- `blockIndex` in `Nat`, below level 32: the low `level` bits of the hash, or one bit more
for a chain already split. -/
theorem HashDB.blockIndex_toNat (db : HashDB) (h : UInt32) (lv : db.level.toNat < 32) :
    (db.blockIndex h).toNat =
      if h.toNat % 2 ^ db.level.toNat < db.splitBlockIdx.toNat then h.toNat % 2 ^ (db.level.toNat + 1)
      else h.toNat % 2 ^ db.level.toNat := by
  have succ : (db.level + 1).toNat = db.level.toNat + 1 := by
    have : (db.level + 1).toNat = (db.level.toNat + 1) % 256 := BitVec.toNat_add _ _
    omega
  have idx : (h &&& (shl1 db.level.toNat - 1)).toNat = h.toNat % 2 ^ db.level.toNat := and_mask_toNat h lv.le
  unfold HashDB.blockIndex
  dsimp only
  rw [apply_ite UInt32.toNat, succ, and_mask_toNat h lv, idx]
  exact if_congr (show _ < _ ↔ _ from idx ▸ Iff.rfl) rfl rfl

/-- At level 0 with nothing split there is one chain. -/
theorem HashDB.blockIndex_level_zero {db : HashDB} (lv : db.level = 0) (sp : db.splitBlockIdx = 0) (h : UInt32) :
    db.blockIndex h = 0 :=
  UInt32.toNat.inj (by rw [db.blockIndex_toNat h (by simp [lv]), lv, sp]; simp [Nat.mod_one])

section Grow
variable (E : Env) {db : HashDB}

/-- What `split` does to the counters before its walk, in `Nat`: the split index advances, or
wraps to 0 and raises the level when it reaches `1 << level`. -/
theorem HashDB.grow_cases (lv : db.level.toNat < 32) (sp : db.splitBlockIdx.toNat < 2 ^ db.level.toNat) :
    ((db.grow E).level.toNat = db.level.toNat ∧ (db.grow E).splitBlockIdx.toNat = db.splitBlockIdx.toNat + 1 ∧
        db.splitBlockIdx.toNat + 1 < 2 ^ db.level.toNat) ∨
      ((db.grow E).level.toNat = db.level.toNat + 1 ∧ (db.grow E).splitBlockIdx.toNat = 0 ∧
        db.splitBlockIdx.toNat + 1 = 2 ^ db.level.toNat) := by
  have pow : 2 ^ db.level.toNat < 2 ^ 32 := Nat.pow_lt_pow_right (by decide) lv
  have succ : (db.splitBlockIdx + 1).toNat = db.splitBlockIdx.toNat + 1 := by
    have : (db.splitBlockIdx + 1).toNat = (db.splitBlockIdx.toNat + 1) % 2 ^ 32 := BitVec.toNat_add _ _
    omega
  have up : (db.level + 1).toNat = db.level.toNat + 1 := by
    have : (db.level + 1).toNat = (db.level.toNat + 1) % 256 := BitVec.toNat_add _ _
    omega
  have wraps : db.splitBlockIdx + 1 = shl1 db.level.toNat ↔ db.splitBlockIdx.toNat + 1 = 2 ^ db.level.toNat := by
    rw [← succ, ← shl1_toNat lv]
    exact ⟨congrArg _, UInt32.toNat.inj⟩
  unfold HashDB.grow
  dsimp only
  split
  · exact .inr ⟨up, rfl, wraps.mp ‹_›⟩
  · exact .inl ⟨rfl, succ, lt_of_le_of_ne sp (mt wraps.mpr ‹_›)⟩

/-- One more chain: `2 ^ level + splitBlockIdx` grows by one. -/
theorem HashDB.grow_counters (lv : db.level.toNat < 32) (sp : db.splitBlockIdx.toNat < 2 ^ db.level.toNat) :
    2 ^ (db.grow E).level.toNat + (db.grow E).splitBlockIdx.toNat = 2 ^ db.level.toNat + db.splitBlockIdx.toNat + 1 ∧
      (db.grow E).splitBlockIdx.toNat < 2 ^ (db.grow E).level.toNat := by
  rcases db.grow_cases E lv sp with ⟨L, S, room⟩ | ⟨L, S, w⟩
  · rw [L, S]
    omega
  · rw [L, S, Nat.pow_succ]
    omega

/-- Below `2 ^ 32` chains, the grown level stays below 32. -/
theorem HashDB.grow_level_lt (lv : db.level.toNat < 32) (sp : db.splitBlockIdx.toNat < 2 ^ db.level.toNat)
    (room : 2 ^ db.level.toNat + db.splitBlockIdx.toNat + 1 < 2 ^ 32) : (db.grow E).level.toNat < 32 := by
  have := (db.grow_counters E lv sp).1
  by_contra big
  have := Nat.pow_le_pow_right (n := 2) (by decide) (Nat.le_of_not_lt big)
  omega

@[simp] theorem HashDB.grow_nBlocks : (db.grow E).nBlocks = db.nBlocks := rfl

@[simp] theorem HashDB.grow_count : (db.grow E).count = db.count := rfl

@[simp] theorem HashDB.grow_data : (db.grow E).data = db.data := rfl

@[simp] theorem HashDB.grow_index_size : (db.grow E).index.size = db.index.size + E.blockSize := rfl

/-- The low `L + 1` bits of a number are its low `L` bits, with or without bit `L`. -/
theorem mod_two_pow_succ_cases (x L : Nat) : x % 2 ^ (L + 1) = x % 2 ^ L ∨ x % 2 ^ (L + 1) = x % 2 ^ L + 2 ^ L := by
  rw [Nat.mod_pow_succ]
  rcases Nat.mod_two_eq_zero_or_one (x / 2 ^ L) with bit | bit <;> simp [bit]

/-- After `grow`, a hash keeps its chain, unless its chain is the one split: then it stays there
or goes to the new chain `2 ^ level + splitBlockIdx`. -/
theorem HashDB.blockIndex_grow (lv : db.level.toNat < 32) (sp : db.splitBlockIdx.toNat < 2 ^ db.level.toNat)
    (lv' : (db.grow E).level.toNat < 32) (h : UInt32) :
    ((db.blockIndex h).toNat ≠ db.splitBlockIdx.toNat → ((db.grow E).blockIndex h).toNat = (db.blockIndex h).toNat) ∧
      ((db.blockIndex h).toNat = db.splitBlockIdx.toNat →
        ((db.grow E).blockIndex h).toNat = db.splitBlockIdx.toNat ∨
          ((db.grow E).blockIndex h).toNat = 2 ^ db.level.toNat + db.splitBlockIdx.toNat) := by
  have two := mod_two_pow_succ_cases h.toNat db.level.toNat
  have low := Nat.mod_lt h.toNat (Nat.two_pow_pos db.level.toNat)
  rw [HashDB.blockIndex_toNat _ h lv, HashDB.blockIndex_toNat _ h lv']
  rcases db.grow_cases E lv sp with ⟨L, S, room⟩ | ⟨L, S, w⟩ <;> rw [L, S]
  · split_ifs <;> omega
  · simp only [Nat.not_lt_zero, if_false]
    split_ifs <;> omega

end Grow

/-- Below `MaxKeys` the count does not wrap. -/
theorem toNat_succ_of_ne_maxKeys {c : UInt32} (h : c ≠ maxKeys) : (c + 1).toNat = c.toNat + 1 := by
  have wrap : (c + 1).toNat = (c.toNat + 1) % 2 ^ 32 := BitVec.toNat_add _ _
  have below : c.toNat ≠ 2 ^ 32 - 1 := fun e => h (UInt32.toNat.inj (by rw [e]; rfl))
  have : c.toNat < 2 ^ 32 := c.toBitVec.isLt
  rw [wrap]
  omega

/-! ## Chains -/

/-- The blocks `c` are a chain starting at `loc`: each block but the last points with `next`
to the data-file offset of the following one, and the last has `next = 0`. -/
inductive Linked : Loc → List (Loc × Block) → Prop
  | last {loc : Loc} {b : Block} : b.next = 0 → Linked loc [(loc, b)]
  | link {loc : Loc} {b : Block} {c : List (Loc × Block)} : b.next ≠ 0 → Linked (.data b.next) c →
      Linked loc ((loc, b) :: c)

/-- What `forEachBlock` does along a chain: `cb` on each block until it returns `true`. -/
def foldStop {σ : Type} (cb : σ → Loc → Block → σ × Bool) : List (Loc × Block) → σ → σ
  | [], s => s
  | (loc, b) :: c, s => if (cb s loc b).2 then (cb s loc b).1 else foldStop cb c (cb s loc b).1

section
variable (E : Env)

/-- Each block of `c` is what reading its location gives. -/
def HashDB.Stored (db : HashDB) (c : List (Loc × Block)) : Prop := ∀ p ∈ c, db.readBlock E p.1 = some p.2

variable {E}

/-- `forEachBlock` walks a chain it has the fuel for to the end, or to the block where the
callback stops. -/
theorem forEachBlock_of_linked {σ : Type} {db : HashDB} {cb : σ → Loc → Block → σ × Bool} {loc : Loc}
    {c : List (Loc × Block)} (hl : Linked loc c) (hs : db.Stored E c) {fuel : Nat} (enough : c.length ≤ fuel)
    (s : σ) : db.forEachBlock E cb fuel loc s = some (foldStop cb c s) := by
  induction hl generalizing fuel s with
  | @last loc b next =>
    obtain ⟨fuel, rfl⟩ : ∃ f, fuel = f + 1 := ⟨fuel - 1, by simp at enough; omega⟩
    simp [HashDB.forEachBlock, hs (loc, b) (List.mem_singleton_self _), next, foldStop]
  | @link loc b c next _ ih =>
    obtain ⟨fuel, rfl⟩ : ∃ f, fuel = f + 1 := ⟨fuel - 1, by simp at enough; omega⟩
    have rest : db.Stored E c := fun p m => hs p (List.mem_cons_of_mem _ m)
    simp only [HashDB.forEachBlock, hs (loc, b) (List.mem_cons_self _ _), next, decide_False, Bool.or_false,
      foldStop]
    split
    · rfl
    · exact ih rest (by simpa using enough) _

/-- What every call of the callback keeps holds of what `forEachBlock` returns, on any chain. -/
theorem forEachBlock_preserves {σ : Type} {db : HashDB} {cb : σ → Loc → Block → σ × Bool} (P : σ → Prop)
    (keeps : ∀ s loc b, P s → P (cb s loc b).1) :
    ∀ {fuel : Nat} {loc : Loc} {s s' : σ}, P s → db.forEachBlock E cb fuel loc s = some s' → P s'
  | 0, _, _, _, _, h => by simp [HashDB.forEachBlock] at h
  | fuel + 1, loc, s, s', hs, h => by
    simp only [HashDB.forEachBlock] at h
    split at h
    · cases h
    · split at h
      · cases h
        exact keeps _ _ _ hs
      · exact forEachBlock_preserves P keeps (keeps _ _ _ hs) h

theorem Stored.congr {db db' : HashDB} {c : List (Loc × Block)} (hs : db.Stored E c)
    (same : ∀ p ∈ c, db'.readBlock E p.1 = db.readBlock E p.1) : db'.Stored E c :=
  fun p m => (same p m).trans (hs p m)

namespace HashDB

theorem readBlock_writeBlock_ne (db : HashDB) {loc loc' : Loc} (b : Block) (ne : loc ≠ loc') :
    (db.writeBlock loc b).readBlock E loc' = db.readBlock E loc' := by
  cases loc <;> cases loc' <;> simp_all [writeBlock, readBlock, mapGet_mapSet_ne]

theorem readBlock_writeBlock_self (db : HashDB) {loc : Loc} (b : Block) (h : (db.readBlock E loc).isSome) :
    (db.writeBlock loc b).readBlock E loc = some b := by
  cases loc with
  | index off =>
    simp only [readBlock] at h ⊢
    split at h
    · simp [writeBlock, *]
    · cases h
  | data off => simp [writeBlock, readBlock]

@[simp] theorem writeBlock_count (db : HashDB) (loc : Loc) (b : Block) : (db.writeBlock loc b).count = db.count := by
  cases loc <;> rfl

@[simp] theorem writeBlock_level (db : HashDB) (loc : Loc) (b : Block) : (db.writeBlock loc b).level = db.level := by
  cases loc <;> rfl

@[simp] theorem writeBlock_nBlocks (db : HashDB) (loc : Loc) (b : Block) :
    (db.writeBlock loc b).nBlocks = db.nBlocks := by
  cases loc <;> rfl

@[simp] theorem writeBlock_splitBlockIdx (db : HashDB) (loc : Loc) (b : Block) :
    (db.writeBlock loc b).splitBlockIdx = db.splitBlockIdx := by
  cases loc <;> rfl

@[simp] theorem writeBlock_index_data (db : HashDB) (off : Int) (b : Block) :
    (db.writeBlock (.index off) b).data = db.data := rfl

@[simp] theorem writeBlock_freelist (db : HashDB) (loc : Loc) (b : Block) :
    (db.writeBlock loc b).data.freelist = db.data.freelist := by
  cases loc <;> rfl

@[simp] theorem writeBlock_data_size (db : HashDB) (loc : Loc) (b : Block) :
    (db.writeBlock loc b).data.size = db.data.size := by
  cases loc <;> rfl

@[simp] theorem writeBlock_records (db : HashDB) (loc : Loc) (b : Block) :
    (db.writeBlock loc b).data.records = db.data.records := by
  cases loc <;> rfl

/-- Where a write makes a block readable: inside the index file, or anywhere in the data file. -/
def Writable (E : Env) (db : HashDB) : Loc → Prop
  | .index off => off + E.blockSize ≤ db.index.size
  | .data _ => True

theorem readBlock_writeBlock_writable (db : HashDB) {loc : Loc} (b : Block) (h : db.Writable E loc) :
    (db.writeBlock loc b).readBlock E loc = some b := by
  cases loc <;> simp_all [Writable, writeBlock, readBlock]

@[simp] theorem writeBlock_index_size (db : HashDB) (loc : Loc) (b : Block) :
    (db.writeBlock loc b).index.size = db.index.size := by
  cases loc <;> rfl

theorem Writable.writeBlock {db : HashDB} {loc : Loc} (h : db.Writable E loc) (l : Loc) (b : Block) :
    (db.writeBlock l b).Writable E loc := by
  cases loc
  · simpa [Writable] using h
  · trivial

/-- Writes of blocks change the blocks only. -/
theorem writes_eq (ws : List (Loc × Block)) : ∀ db : HashDB, ∃ ib dbk,
    ws.foldl (fun db lb => db.writeBlock lb.1 lb.2) db =
      { db with index := { db.index with blocks := ib }, data := { db.data with blocks := dbk } } := by
  induction ws with
  | nil => exact fun db => ⟨db.index.blocks, db.data.blocks, rfl⟩
  | cons w ws ih =>
    intro db
    obtain ⟨ib, dbk, h⟩ := ih (db.writeBlock w.1 w.2)
    refine ⟨ib, dbk, ?_⟩
    rw [List.foldl_cons, h]
    obtain ⟨l, b⟩ := w
    cases l <;> rfl

/-- Writes at distinct locations, one after the other: each reads back, and nothing else
changes. -/
theorem readBlock_writes (ws : List (Loc × Block)) : ∀ {db : HashDB}, (ws.map (·.1)).Nodup →
    (∀ p ∈ ws, db.Writable E p.1) →
    (∀ p ∈ ws, (ws.foldl (fun db lb => db.writeBlock lb.1 lb.2) db).readBlock E p.1 = some p.2) ∧
      ∀ loc ∉ ws.map (·.1), (ws.foldl (fun db lb => db.writeBlock lb.1 lb.2) db).readBlock E loc = db.readBlock E loc := by
  induction ws with
  | nil => simp
  | cons w ws ih =>
    intro db nodup writable
    obtain ⟨l, b⟩ := w
    simp only [List.map_cons, List.nodup_cons] at nodup
    have writable' : ∀ p ∈ ws, (db.writeBlock l b).Writable E p.1 :=
      fun p m => (writable p (List.mem_cons_of_mem _ m)).writeBlock l b
    obtain ⟨reads, frame⟩ := ih nodup.2 writable'
    refine ⟨fun p m => ?_, fun loc m => ?_⟩
    · rcases List.mem_cons.mp m with rfl | m
      · rw [List.foldl_cons, frame _ nodup.1]
        exact readBlock_writeBlock_writable _ _ (writable _ (List.mem_cons_self _ _))
      · exact reads p m
    · simp only [List.map_cons, List.mem_cons, not_or] at m
      rw [List.foldl_cons, frame _ m.2, readBlock_writeBlock_ne _ _ (Ne.symm m.1)]

/-- Reading blocks looks only at the index file and the data file's blocks. -/
theorem readBlock_of_eq {db db' : HashDB} (hi : db'.index = db.index) (hb : db'.data.blocks = db.data.blocks) :
    db'.readBlock E = db.readBlock E := by
  funext loc
  cases loc <;> simp [readBlock, hi, hb]

end HashDB

/-! ## The walks of the operations -/

/-- Along a list, either no element gives a value, or a first one does. -/
theorem first_some {α β : Type} (f : α → Option β) :
    ∀ c : List α, (∀ p ∈ c, f p = none) ∨ ∃ pre p post v, c = pre ++ p :: post ∧ (∀ q ∈ pre, f q = none) ∧ f p = some v
  | [] => .inl (by simp)
  | p :: c => by
    cases hp : f p with
    | some v => exact .inr ⟨[], p, c, v, rfl, by simp, hp⟩
    | none =>
      rcases first_some f c with none | ⟨pre, q, post, v, rfl, pass, hit⟩
      · exact .inl (by simpa [hp] using none)
      · exact .inr ⟨p :: pre, q, post, v, rfl, by simpa [hp] using pass, hit⟩

theorem Linked.cons_inv {loc : Loc} {p : Loc × Block} {c : List (Loc × Block)} (hl : Linked loc (p :: c)) :
    p.1 = loc ∧ (c = [] ∧ p.2.next = 0 ∨ p.2.next ≠ 0 ∧ Linked (.data p.2.next) c) := by
  cases hl with
  | last next => exact ⟨rfl, .inl ⟨rfl, next⟩⟩
  | link next rest => exact ⟨rfl, .inr ⟨next, rest⟩⟩

/-- The blocks of a chain before another are not its last: their `next` is set. -/
theorem Linked.next_ne_zero {loc : Loc} {pre : List (Loc × Block)} {p : Loc × Block} {post : List (Loc × Block)}
    (hl : Linked loc (pre ++ p :: post)) : ∀ q ∈ pre, q.2.next ≠ 0 := by
  induction pre generalizing loc with
  | nil => simp
  | cons q pre ih =>
    rcases (List.cons_append _ _ _ ▸ hl).cons_inv.2 with ⟨empty, -⟩ | ⟨next, rest⟩
    · simp at empty
    · simpa [next] using ih rest

/-- The last block of a chain has `next = 0`. -/
theorem Linked.last_next {loc : Loc} {pre : List (Loc × Block)} {p : Loc × Block}
    (hl : Linked loc (pre ++ [p])) : p.2.next = 0 := by
  induction pre generalizing loc with
  | nil =>
    rcases hl.cons_inv.2 with ⟨-, next⟩ | ⟨-, rest⟩
    · exact next
    · cases rest
  | cons q pre ih =>
    rcases (List.cons_append _ _ _ ▸ hl).cons_inv.2 with ⟨empty, -⟩ | ⟨-, rest⟩
    · simp at empty
    · exact ih rest

theorem Linked.cons_of {loc : Loc} {p : Loc × Block} {c : List (Loc × Block)} (here : p.1 = loc)
    (next : p.2.next ≠ 0) (rest : Linked (.data p.2.next) c) : Linked loc (p :: c) := by
  obtain ⟨l, b⟩ := p
  subst here
  exact .link next rest

/-- A block of a chain replaced by one with the same `next`. -/
theorem Linked.replace {loc : Loc} {pre post : List (Loc × Block)} {l : Loc} {b b' : Block}
    (hl : Linked loc (pre ++ (l, b) :: post)) (next : b'.next = b.next) : Linked loc (pre ++ (l, b') :: post) := by
  induction pre generalizing loc with
  | nil =>
    obtain ⟨rfl, ⟨rfl, last⟩ | ⟨ne, rest⟩⟩ := hl.cons_inv
    · exact .last (next.trans last)
    · exact .link (next ▸ ne) (next ▸ rest)
  | cons q pre ih =>
    obtain ⟨here, ⟨empty, -⟩ | ⟨ne, rest⟩⟩ := (List.cons_append _ _ _ ▸ hl).cons_inv
    · simp at empty
    · exact Linked.cons_of here ne (ih rest)

/-- A new last block chained after the last one. -/
theorem Linked.extend {loc : Loc} {pre : List (Loc × Block)} {l : Loc} {b b' : Block} {r : Int}
    (hl : Linked loc (pre ++ [(l, b)])) (r0 : r ≠ 0) (last : b'.next = 0) :
    Linked loc (pre ++ [(l, b.setNext r), (.data r, b')]) := by
  induction pre generalizing loc with
  | nil =>
    obtain ⟨rfl, -⟩ := hl.cons_inv
    exact .link r0 (.last last)
  | cons q pre ih =>
    obtain ⟨here, ⟨empty, -⟩ | ⟨ne, rest⟩⟩ := (List.cons_append _ _ _ ▸ hl).cons_inv
    · simp at empty
    · exact Linked.cons_of here ne (ih rest)

/-- The blocks of a chain are where it starts or overflow blocks. -/
theorem Linked.locs {loc : Loc} {c : List (Loc × Block)} (hl : Linked loc c) :
    ∀ p ∈ c, p.1 = loc ∨ ∃ off, p.1 = .data off := by
  induction hl with
  | last => simp
  | link _ _ ih =>
    intro p m
    rcases List.mem_cons.mp m with rfl | m
    · exact .inl rfl
    · exact .inr ((ih p m).elim (fun h => ⟨_, h⟩) id)

theorem Linked.ne_nil {loc : Loc} {c : List (Loc × Block)} (hl : Linked loc c) : c ≠ [] := by
  cases hl <;> simp

section Put
variable {E : Env} {hash : UInt32} {key : Bytes}

/-- `put`'s callback passes over a block of a chain with no slot where its loop stops. -/
theorem foldStop_putBlock_pass (pre rest : List (Loc × Block)) (s : PutScan)
    (pass : ∀ p ∈ pre, p.2.entries.findIdx? (Stops s.data.readKey hash key) = none ∧ p.2.next ≠ 0) :
    ∃ b i, foldStop (putBlock E hash key) (pre ++ rest) s = foldStop (putBlock E hash key) rest { s with b, entryIdx := i } := by
  induction pre generalizing s with
  | nil => exact ⟨s.b, s.entryIdx, rfl⟩
  | cons p pre ih =>
    obtain ⟨none, next⟩ := pass p (List.mem_cons_self _ _)
    obtain ⟨b, i, h⟩ := ih { s with b := p, entryIdx := entriesPerBlock - 1 } (fun q m => pass q (List.mem_cons_of_mem _ m))
    exact ⟨b, i, by simpa [foldStop, putBlock, none, next] using h⟩

/-- `put`'s walk stops at the first block with a slot where its loop stops. -/
theorem foldStop_putBlock_stop {pre post : List (Loc × Block)} {l : Loc} {b : Block} {i : Nat} (s : PutScan)
    (pass : ∀ p ∈ pre, p.2.entries.findIdx? (Stops s.data.readKey hash key) = none ∧ p.2.next ≠ 0)
    (hit : b.entries.findIdx? (Stops s.data.readKey hash key) = some i) :
    foldStop (putBlock E hash key) (pre ++ (l, b) :: post) s =
      { s with b := (l, b), entryIdx := i,
               failed := decide ((b.slot i).kvOffset ≠ 0) && (s.data.readKey (b.slot i)).isNone } := by
  obtain ⟨b', i', h⟩ := foldStop_putBlock_pass (E := E) pre ((l, b) :: post) s pass
  rw [h]
  simp [foldStop, putBlock, hit]

/-- With no such slot in the whole chain, `put`'s walk chains a new overflow block to the last. -/
theorem foldStop_putBlock_overflow {pre : List (Loc × Block)} {l : Loc} {b : Block} (s : PutScan)
    (pass : ∀ p ∈ pre, p.2.entries.findIdx? (Stops s.data.readKey hash key) = none ∧ p.2.next ≠ 0)
    (full : b.entries.findIdx? (Stops s.data.readKey hash key) = none) (last : b.next = 0) :
    foldStop (putBlock E hash key) (pre ++ [(l, b)]) s =
      ⟨(s.data.allocate E.blockSize).1, (.data (s.data.allocate E.blockSize).2, .zero),
        some (l, b.setNext (s.data.allocate E.blockSize).2), 0, false⟩ := by
  obtain ⟨b', i', h⟩ := foldStop_putBlock_pass (E := E) pre [(l, b)] s pass
  rw [h]
  simp [foldStop, putBlock, full, last]

variable {db : HashDB} {c : List (Loc × Block)}

/-- `put` over a chain it can walk, with a block holding a slot where its loop stops, whose key
reads if it is occupied: that block and slot. -/
theorem put_of_stop (value : Bytes) (expiresAt : UInt32) (hl : Linked (HashDB.head E (db.blockIndex hash)) c)
    (hs : db.Stored E c) (enough : c.length ≤ db.walkFuel) {pre post : List (Loc × Block)} {l : Loc} {b : Block}
    {i : Nat} (hc : c = pre ++ (l, b) :: post)
    (pass : ∀ p ∈ pre, p.2.entries.findIdx? (Stops db.data.readKey hash key) = none)
    (hit : b.entries.findIdx? (Stops db.data.readKey hash key) = some i)
    (reads : (b.slot i).kvOffset ≠ 0 → (db.data.readKey (b.slot i)).isSome) :
    db.put E hash key value expiresAt = db.putAt hash key value expiresAt ⟨db.data, (l, b), none, i, false⟩ := by
  subst hc
  have walk : db.forEachBlock E (putBlock E hash key) db.walkFuel _ ⟨db.data, (.index 0, .zero), none, 0, false⟩ = _ :=
    forEachBlock_of_linked hl hs enough _
  rw [@foldStop_putBlock_stop E hash key pre post l b i ⟨db.data, (.index 0, .zero), none, 0, false⟩
    (fun p m => ⟨pass p m, hl.next_ne_zero p m⟩) hit] at walk
  have ok : (decide ((b.slot i).kvOffset ≠ 0) && (db.data.readKey (b.slot i)).isNone) = false := by
    by_cases used : (b.slot i).kvOffset = 0
    · simp [used]
    · simp [used, Option.isNone_iff_eq_none, ← Option.not_isSome_iff_eq_none, reads used]
  simp only [HashDB.put, walk, ok, Bool.false_eq_true, if_false]

/-- `put` over a chain it can walk, with no slot where its loop stops: a new overflow block
after the last. -/
theorem put_of_overflow (value : Bytes) (expiresAt : UInt32) (hl : Linked (HashDB.head E (db.blockIndex hash)) c)
    (hs : db.Stored E c) (enough : c.length ≤ db.walkFuel) {pre : List (Loc × Block)} {l : Loc} {b : Block}
    (hc : c = pre ++ [(l, b)]) (full : ∀ p ∈ c, p.2.entries.findIdx? (Stops db.data.readKey hash key) = none) :
    db.put E hash key value expiresAt = db.putAt hash key value expiresAt
      ⟨(db.data.allocate E.blockSize).1, (.data (db.data.allocate E.blockSize).2, .zero),
        some (l, b.setNext (db.data.allocate E.blockSize).2), 0, false⟩ := by
  subst hc
  have walk : db.forEachBlock E (putBlock E hash key) db.walkFuel _ ⟨db.data, (.index 0, .zero), none, 0, false⟩ = _ :=
    forEachBlock_of_linked hl hs enough _
  rw [@foldStop_putBlock_overflow E hash key pre l b ⟨db.data, (.index 0, .zero), none, 0, false⟩
    (fun p m => ⟨full p (List.mem_append_left _ m), hl.next_ne_zero p m⟩)
    (full _ (List.mem_append_right _ (List.mem_singleton_self _))) hl.last_next] at walk
  simp only [HashDB.put, walk, Bool.false_eq_true, if_false]

/-- The end of `put` for a new key with no block to link: the key and value written, the slot
set, one more key. -/
theorem putAt_new {db : HashDB} (value : Bytes) (expiresAt : UInt32) {s : PutScan}
    (free : (s.b.2.slot s.entryIdx).kvOffset = 0) (room : db.count ≠ maxKeys) (alone : s.originalB = none) :
    db.putAt hash key value expiresAt s =
      ({ db with count := db.count + 1, data := (s.data.writeKeyValue key value).1 }.writeBlock s.b.1
        (s.b.2.set s.entryIdx
          ⟨hash, key.length.toUInt16, value.length.toUInt32, expiresAt, (s.data.writeKeyValue key value).2⟩), none) := by
  simp only [HashDB.putAt, free, room, alone, and_false, if_false, if_true]

/-- The end of `put` for a new key when the count is `MaxKeys`: `ErrFull`, with the data file as
the walk left it. -/
theorem putAt_full {db : HashDB} (value : Bytes) (expiresAt : UInt32) {s : PutScan}
    (free : (s.b.2.slot s.entryIdx).kvOffset = 0) (full : db.count = maxKeys) :
    db.putAt hash key value expiresAt s = ({ db with data := s.data }, some .full) := by
  simp only [HashDB.putAt, free, full, and_self, if_true]

/-- The end of `put` for a present key: the slot rewritten, the new key and value written, the
old ones freed. -/
theorem putAt_replace {db : HashDB} (value : Bytes) (expiresAt : UInt32) {s : PutScan}
    (used : (s.b.2.slot s.entryIdx).kvOffset ≠ 0) (alone : s.originalB = none) :
    db.putAt hash key value expiresAt s =
      ({ ({ db with data := (s.data.writeKeyValue key value).1 }.writeBlock s.b.1
          (s.b.2.set s.entryIdx
            ⟨hash, key.length.toUInt16, value.length.toUInt32, expiresAt, (s.data.writeKeyValue key value).2⟩)) with
        data := ({ db with data := (s.data.writeKeyValue key value).1 }.writeBlock s.b.1
          (s.b.2.set s.entryIdx
            ⟨hash, key.length.toUInt16, value.length.toUInt32, expiresAt, (s.data.writeKeyValue key value).2⟩)).data.free
          (s.b.2.slot s.entryIdx).kvSize (s.b.2.slot s.entryIdx).kvOffset }, none) := by
  simp only [HashDB.putAt, used, false_and, if_false, alone]

/-- The end of `put` for a new key in a new overflow block: the block written, then the block it
is chained after. -/
theorem putAt_linked {db : HashDB} (value : Bytes) (expiresAt : UInt32) {s : PutScan} {l : Loc} {ob : Block}
    (free : (s.b.2.slot s.entryIdx).kvOffset = 0) (room : db.count ≠ maxKeys) (linked : s.originalB = some (l, ob)) :
    db.putAt hash key value expiresAt s =
      (({ db with count := db.count + 1, data := (s.data.writeKeyValue key value).1 }.writeBlock s.b.1
        (s.b.2.set s.entryIdx
          ⟨hash, key.length.toUInt16, value.length.toUInt32, expiresAt, (s.data.writeKeyValue key value).2⟩)).writeBlock
        l ob, none) := by
  simp only [HashDB.putAt, free, room, linked, and_false, if_false, if_true]

/-- `put` of a key that no slot of the chain holds before the first block with room: into its
first free slot. -/
theorem put_fill (value : Bytes) (expiresAt : UInt32) (hl : Linked (HashDB.head E (db.blockIndex hash)) c)
    (hs : db.Stored E c) (enough : c.length ≤ db.walkFuel) {pre post : List (Loc × Block)} {l : Loc} {b : Block}
    (hc : c = pre ++ (l, b) :: post) (pass : ∀ p ∈ pre, p.2.entries.findIdx? (Stops db.data.readKey hash key) = none)
    (hp : b.Packed) (room : b.occupied.length < entriesPerBlock)
    (miss : ∀ sl ∈ b.occupied, Stops db.data.readKey hash key sl = false) (fresh : db.count ≠ maxKeys) :
    db.put E hash key value expiresAt =
      ({ db with count := db.count + 1, data := (db.data.writeKeyValue key value).1 }.writeBlock l
        (b.set b.occupied.length
          ⟨hash, key.length.toUInt16, value.length.toUInt32, expiresAt, (db.data.writeKeyValue key value).2⟩), none) := by
  have hit : b.entries.findIdx? (Stops db.data.readKey hash key) = some b.occupied.length := by
    rw [Block.findIdx?_stops hp (fun sl free => by simp [Stops, free]), List.findIdx?_eq_none_iff.mpr miss]
    simp [room]
  rw [put_of_stop value expiresAt hl hs enough hc pass hit fun used => absurd (Block.slot_occupied_length hp) used]
  exact putAt_new value expiresAt (Block.slot_occupied_length hp) fresh rfl

end Put

section Delete
variable {E : Env} {data : DataFile} {h : UInt32} {key : Bytes}

/-- `Delete`'s walk finds a slot of a block of the chain where the key is. -/
theorem foldStop_deleteBlock : ∀ (c : List (Loc × Block)) {found : Option (Option (Loc × Block × Nat))} {l : Loc}
    {b : Block} {j : Nat}, foldStop (deleteBlock data h key) c found = some (some (l, b, j)) →
      found = some (some (l, b, j)) ∨ (l, b) ∈ c ∧ scanBlock data.readKey h key b = .found j
  | [], _, _, _, _, hf => .inl hf
  | (loc, b') :: c, found, l, b, j, hf => by
    have tail : foldStop (deleteBlock data h key) c found = some (some (l, b, j)) →
        found = some (some (l, b, j)) ∨ (l, b) ∈ (loc, b') :: c ∧ scanBlock data.readKey h key b = .found j :=
      fun hf => (foldStop_deleteBlock c hf).imp id fun ⟨m, hs⟩ => ⟨List.mem_cons_of_mem _ m, hs⟩
    cases hsb : scanBlock data.readKey h key b' with
    | pass =>
      simp only [foldStop, deleteBlock, hsb, Bool.false_eq_true, if_false] at hf
      exact tail hf
    | free =>
      simp only [foldStop, deleteBlock, hsb] at hf
      split at hf
      · exact .inl hf
      · exact tail hf
    | failed => simp [foldStop, deleteBlock, hsb] at hf
    | found i =>
      simp only [foldStop, deleteBlock, hsb, if_true, Option.some.injEq, Prod.mk.injEq] at hf
      obtain ⟨rfl, rfl, rfl⟩ := hf
      exact .inr ⟨List.mem_cons_self _ _, hsb⟩

/-- Along blocks whose occupied slots all read, `Delete`'s walk does not fail. -/
theorem foldStop_deleteBlock_ne_none : ∀ {c : List (Loc × Block)}, (∀ p ∈ c, ∀ x ∈ p.2.occupied, (data.readKey x).isSome) →
    ∀ {found : Option (Option (Loc × Block × Nat))}, found ≠ none → foldStop (deleteBlock data h key) c found ≠ none
  | [], _, _, ne => ne
  | (loc, b) :: c, reads, found, ne => by
    have ok : scanBlock data.readKey h key b ≠ .failed := fun hf => by
      obtain ⟨x, m, none⟩ := scanBlock_failed hf
      simpa [none] using reads _ (List.mem_cons_self _ _) x m
    have rest : ∀ {s : Option (Option (Loc × Block × Nat))}, s ≠ none → foldStop (deleteBlock data h key) c s ≠ none :=
      foldStop_deleteBlock_ne_none fun p m => reads p (List.mem_cons_of_mem _ m)
    cases hsb : scanBlock data.readKey h key b with
    | pass => simpa [foldStop, deleteBlock, hsb] using rest ne
    | free =>
      simp only [foldStop, deleteBlock, hsb]
      split
      · exact ne
      · exact rest ne
    | failed => exact absurd hsb ok
    | found i => simp [foldStop, deleteBlock, hsb]

/-- `Delete` over a chain it can walk, whose occupied slots all read, returns no error, and
either changes nothing or removes a slot holding the key from a block of the chain. -/
theorem delete_of_chain {db : HashDB} {c : List (Loc × Block)} (hl : Linked (HashDB.head E (db.blockIndex (E.hashOf key))) c)
    (hs : db.Stored E c) (enough : c.length ≤ db.walkFuel)
    (reads : ∀ p ∈ c, ∀ x ∈ p.2.occupied, (db.data.readKey x).isSome) :
    (db.delete E key).2 = none ∧
      ((db.delete E key).1 = db ∨ ∃ l b j, (l, b) ∈ c ∧ scanBlock db.data.readKey (E.hashOf key) key b = .found j ∧
        (db.delete E key).1 = db.deleteAt l b j) := by
  unfold HashDB.delete
  split
  · rw [forEachBlock_of_linked hl hs enough]
    cases hf : foldStop (deleteBlock db.data (E.hashOf key) key) c (some none) with
    | none => exact absurd hf (foldStop_deleteBlock_ne_none reads (Option.some_ne_none _))
    | some r =>
      rcases r with _ | ⟨l, b, j⟩
      · exact ⟨rfl, .inl rfl⟩
      rcases foldStop_deleteBlock c hf with found | ⟨m, scan⟩
      · cases found
      · exact ⟨rfl, .inr ⟨l, b, j, m, scan, rfl⟩⟩
  · exact ⟨rfl, .inl rfl⟩

end Delete

end

/-! ## Runs -/

/-- An operation on the index. -/
inductive IndexOp
  | put (hash : UInt32) (key value : Bytes) (expiresAt : UInt32)
  | delete (key : Bytes)
  | split (io : SplitIO)

namespace HashDB
variable (E : Env)

def step (db : HashDB) : IndexOp → HashDB × Option Error
  | .put hash key value expiresAt => db.put E hash key value expiresAt
  | .delete key => db.delete E key
  | .split io => db.split E io

/-- The operations one after the other, with the error each returns. -/
def run (db : HashDB) : List IndexOp → HashDB × List (Option Error)
  | [] => (db, [])
  | op :: ops => ((db.step E op).1.run ops |>.1, (db.step E op).2 :: ((db.step E op).1.run ops).2)

end HashDB

end UnitDB.Source.LinearHash
