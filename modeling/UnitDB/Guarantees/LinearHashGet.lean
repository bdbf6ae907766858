import Mathlib.Data.List.GetD
import UnitDB.Guarantees.LinearHashInvariant

/-!
# What `Get` returns: the index as a map

`Get` walks the chain of the key's hash and returns the value of the first occupied slot that
holds the key under its hash (`Matches`). Over the chains of the invariant `Inv`, that is
`lookup` over the occupied slots of the chain, in order (`get_eq_view`). `Get` reads each slot's key
and value, `Has` its key only, and either fails at a slot that does not read; in a state with the
invariant every slot reads, and `Has` answers whether `Get` finds a value (`has_eq_get`).

What the operations do to it, in every state with the invariant:

* `put` of a key under its own hash, below `MaxKeys`, returns nil. The chain of the key then
  holds the new slot where `put`'s loop stopped, before every other slot holding the key, and
  the records of the other slots are untouched: `Get` returns the value put, and `Get` of
  every other key what it returned before (`PutShape.view_update`);
* `split` moves the slots of one chain to two chains, in order, and writes no record: `Get`
  returns the same for every key (`split_view`);
* `Delete` removes the first slot of the chain holding the key: `Get` of every other key is
  unchanged, and `Get` of the key returns the value of the next slot holding it
  (`delete_view`), nothing if the chain held the key once (`get_after_delete`), and the older
  value where a `put` left a second copy (`get_after_delete_refill`).

So a run of `put` and `split` from any state with the invariant is a run of a map: every call
returns nil and `Get` returns, for each key, the last value put, or what it returned before
the run (`get_after_puts`). Such runs hold each key once (`LinearHashKeys`), but `Delete` is
not a map's erase: a `put` whose loop stops at a free slot before an older copy of its key, a
slot a `Delete` freed, leaves two copies, and a later `Delete` brings the older value back.

The keys are those `put` is given by its callers: under their own hash, which the presence
filter has, of 1 to `MaxKeyLength - 1` octets (`uint16(len(key))` is 0 at `MaxKeyLength`, see
`max_length_key_lost`), with values shorter than `2 ^ 32` octets. A record of no octets writes
nothing in a file, but the model's record map replaces the record at its offset, so the key is
not empty (message ids never are).
-/

set_option autoImplicit false

namespace UnitDB.Guarantees.LinearHashGet
open UnitDB.Source UnitDB.Source.LinearHash UnitDB.Guarantees.LinearHashInvariant

/-! ## Slots holding a key -/

/-- An occupied slot holds `key` under hash `h`: where the slot loops of `put`, `Get`, `Has` and
`Delete` stop, short of a free slot, when they read the key its record holds. -/
def Matches (data : DataFile) (h : UInt32) (key : Bytes) (sl : Slot) : Bool :=
  h = sl.hash && key.length.toUInt16 = sl.keySize && data.slotKey sl = key

/-- A slot loop that reads the key a slot's record holds stops there if the slot is free or holds
the key. -/
theorem stops_eq {read : Slot → Option Bytes} {data : DataFile} (h : UInt32) (key : Bytes) {sl : Slot}
    (reads : read sl = some (data.slotKey sl)) : Stops read h key sl = (decide (sl.kvOffset = 0) || Matches data h key sl) := by
  simp only [Stops, Matches, reads, Option.all_some]

/-- The value of the first of `slots` holding `key`. -/
def lookup (data : DataFile) (h : UInt32) (key : Bytes) (slots : List Slot) : Option Bytes :=
  (slots.find? (Matches data h key)).map fun sl => (data.slotKeyValue sl).2

/-- The occupied slots of blocks, in order. -/
def slotsOf (c : List (Loc × Block)) : List Slot := c.flatMap (·.2.occupied)

@[simp] theorem slotsOf_nil : slotsOf [] = [] := rfl

@[simp] theorem slotsOf_cons (p : Loc × Block) (c : List (Loc × Block)) :
    slotsOf (p :: c) = p.2.occupied ++ slotsOf c := rfl

@[simp] theorem slotsOf_append (c c' : List (Loc × Block)) : slotsOf (c ++ c') = slotsOf c ++ slotsOf c' :=
  List.flatMap_append _ _ _

section Lookup
variable {data data' : DataFile} {h : UInt32} {key : Bytes}

theorem lookup_append (A B : List Slot) :
    lookup data h key (A ++ B) = (lookup data h key A).or (lookup data h key B) := by
  simp only [lookup, List.find?_append]
  cases A.find? (Matches data h key) <;> rfl

theorem lookup_eq_none {A : List Slot} (miss : ∀ x ∈ A, Matches data h key x = false) : lookup data h key A = none := by
  simp only [lookup, Option.map_eq_none', List.find?_eq_none]
  exact fun x m => by simp [miss x m]

theorem lookup_cons_of_matches {x : Slot} (hit : Matches data h key x = true) (B : List Slot) :
    lookup data h key (x :: B) = some (data.slotKeyValue x).2 := by
  simp [lookup, List.find?_cons, hit]

theorem lookup_cons_of_miss {x : Slot} (miss : Matches data h key x = false) (B : List Slot) :
    lookup data h key (x :: B) = lookup data h key B := by
  simp [lookup, List.find?_cons, miss]

/-- Slots whose records hold the same in two data files are looked up the same. -/
theorem lookup_congr {A : List Slot} (same : ∀ x ∈ A, data'.slotKeyValue x = data.slotKeyValue x) :
    lookup data' h key A = lookup data h key A := by
  induction A with
  | nil => rfl
  | cons x A ih =>
    have hx := same x (List.mem_cons_self _ _)
    have key_eq : data'.slotKey x = data.slotKey x := congrArg Prod.fst hx
    simp only [lookup, List.find?_cons, Matches, key_eq] at ih ⊢
    split
    · simp [hx]
    · exact ih fun y m => same y (List.mem_cons_of_mem _ m)

/-- A slot holding `key` holds no other key. -/
theorem matches_other {x : Slot} (hit : Matches data h key x = true) {k : Bytes} (ne : k ≠ key) (h' : UInt32) :
    Matches data h' k x = false := by
  simp only [Matches, Bool.and_eq_true, decide_eq_true_eq] at hit
  simp [Matches, hit.2, Ne.symm ne]

/-- A slot `y` in place of slots `X`, none of them holding the key, the slots around read the
same: the lookup is the same. -/
theorem lookup_splice {A X B : List Slot} {y : Slot} (missX : ∀ x ∈ X, Matches data h key x = false)
    (missY : Matches data' h key y = false) (same : ∀ x ∈ A ++ B, data'.slotKeyValue x = data.slotKeyValue x) :
    lookup data' h key (A ++ y :: B) = lookup data h key (A ++ X ++ B) := by
  rw [lookup_append, lookup_cons_of_miss missY, lookup_append, lookup_append, lookup_eq_none missX, Option.or_none,
    lookup_congr fun x m => same x (List.mem_append_left _ m), lookup_congr fun x m => same x (List.mem_append_right _ m)]

end Lookup

theorem getD_set_self {α : Type} {l : List α} {i : Nat} (hi : i < l.length) (x d : α) : (l.set i x).getD i d = x := by
  simp [List.getD_eq_getElem?_getD, hi]

theorem getD_set_ne {α : Type} (l : List α) {i j : Nat} (ne : i ≠ j) (x d : α) : (l.set i x).getD j d = l.getD j d := by
  simp [List.getD_eq_getElem?_getD, List.getElem?_set_ne ne]

/-! ## The walks of `Get`, `Has` and `Delete` -/

/-- The first index where `p` holds gives the first element where it holds. -/
theorem find?_of_findIdx? {α : Type} {p : α → Bool} : ∀ {l : List α} {i : Nat}, l.findIdx? p = some i → l.find? p = l[i]?
  | [], _, h => by simp at h
  | x :: l, i, h => by
    by_cases px : p x
    · simp only [List.findIdx?_cons, px, if_true, Option.some.injEq] at h
      subst h
      simp [List.find?_cons, px]
    · simp only [List.findIdx?_cons, px, Bool.false_eq_true, if_false, List.findIdx?_succ, Option.map_eq_some'] at h
      obtain ⟨j, hj, rfl⟩ := h
      simp [List.find?_cons, px, find?_of_findIdx? hj]

theorem findIdx?_congr {α : Type} {p q : α → Bool} :
    ∀ {l : List α} {i : Nat}, (∀ x ∈ l, p x = q x) → l.findIdx? p i = l.findIdx? q i
  | [], _, _ => rfl
  | x :: l, i, h => by
    simp only [List.findIdx?_cons, h x (List.mem_cons_self _ _), findIdx?_congr fun y m => h y (List.mem_cons_of_mem _ m)]

/-- Before the first index where `p` holds, it does not. -/
theorem take_miss {α : Type} {p : α → Bool} {l : List α} {j : Nat} (first : l.findIdx? p = some j) :
    ∀ x ∈ l.take j, p x = false := by
  intro x m
  obtain ⟨k, hk, rfl⟩ := List.getElem_of_mem m
  obtain ⟨_, -, before⟩ := List.findIdx?_eq_some_iff_getElem.mp first
  rw [List.length_take] at hk
  rw [List.getElem_take]
  simpa using before k (by omega)

section Walk
variable {read : Slot → Option Bytes} {data : DataFile} {h : UInt32} {key : Bytes}

/-- Among occupied slots whose keys read, the slot loops stop at the first one holding the key. -/
theorem findIdx?_occupied {b : Block} (reads : ∀ x ∈ b.occupied, read x = some (data.slotKey x)) :
    b.occupied.findIdx? (Stops read h key) = b.occupied.findIdx? (Matches data h key) :=
  findIdx?_congr fun x m => by simp [stops_eq h key (reads x m), Block.used_of_mem_occupied m]

/-- The scan of a packed block whose occupied slots' keys read: the first occupied slot holding the
key, else a free slot if the block has one. -/
theorem scanBlock_packed {b : Block} (hp : b.Packed) (reads : ∀ x ∈ b.occupied, read x = some (data.slotKey x)) :
    scanBlock read h key b = match b.occupied.findIdx? (Matches data h key) with
      | some i => .found i
      | none => if b.occupied.length < entriesPerBlock then .free else .pass := by
  unfold scanBlock
  rw [Block.findIdx?_stops hp stops_of_free, findIdx?_occupied reads]
  cases hm : b.occupied.findIdx? (Matches data h key) with
  | some i =>
    have lt := (List.findIdx?_eq_some_iff_getElem.mp hm).1
    simp [Block.slot_of_lt hp lt, Block.used_of_mem_occupied (List.getElem_mem lt), reads _ (List.getElem_mem lt)]
  | none =>
    by_cases room : b.occupied.length < entriesPerBlock <;> simp [room, Block.slot_occupied_length hp]

/-- The first block of a chain with an occupied slot holding the key, and that slot. -/
def firstHit (data : DataFile) (h : UInt32) (key : Bytes) : List (Loc × Block) → Option (Loc × Block × Nat)
  | [] => none
  | (l, b) :: c => match b.occupied.findIdx? (Matches data h key) with
    | some i => some (l, b, i)
    | none => firstHit data h key c

/-- The walks of `Get`, `Has` and `Delete` along a chain of packed blocks whose occupied slots'
keys read keep their state up to the first block with a slot holding the key, where `hit` of it
ends the walk. -/
theorem foldStop_scan {σ : Type} {cb : σ → Loc → Block → σ × Bool} (fail : σ) (hit : Loc → Block → Nat → σ)
    (form : ∀ s l b, cb s l b = match scanBlock read h key b with
      | .pass => (s, false)
      | .free => (s, b.next = 0)
      | .failed => (fail, true)
      | .found i => (hit l b i, true))
    {loc : Loc} {c : List (Loc × Block)} (hl : Linked loc c) (hp : ∀ p ∈ c, p.2.Packed)
    (reads : ∀ p ∈ c, ∀ x ∈ p.2.occupied, read x = some (data.slotKey x)) (s : σ) :
    foldStop cb c s = match firstHit data h key c with
      | some (l, b, i) => hit l b i
      | none => s := by
  induction hl with
  | @last loc b next =>
    have scan := @scanBlock_packed read data h key _ (hp _ (List.mem_singleton_self _)) (reads _ (List.mem_singleton_self _))
    cases hm : b.occupied.findIdx? (Matches data h key) with
    | some i => simp [foldStop, form, scan, firstHit, hm]
    | none =>
      have step : (cb s loc b).1 = s := by
        rw [form, scan, hm]
        split_ifs <;> rfl
      simp [foldStop, step, firstHit, hm]
  | @link loc b c next _ ih =>
    have scan := @scanBlock_packed read data h key _ (hp _ (List.mem_cons_self _ _)) (reads _ (List.mem_cons_self _ _))
    cases hm : b.occupied.findIdx? (Matches data h key) with
    | some i => simp [foldStop, form, scan, firstHit, hm]
    | none =>
      have step : cb s loc b = (s, false) := by
        rw [form, scan, hm]
        split_ifs <;> simp [next]
      simp only [foldStop, step, Bool.false_eq_true, if_false, firstHit, hm]
      exact ih (fun p m => hp p (List.mem_cons_of_mem _ m)) fun p m => reads p (List.mem_cons_of_mem _ m)

/-- What `Get` reads along a chain of packed blocks is `lookup` over its occupied slots. -/
theorem lookup_slotsOf : ∀ {c : List (Loc × Block)}, (∀ p ∈ c, p.2.Packed) →
    lookup data h key (slotsOf c) = (firstHit data h key c).map fun r => (data.slotKeyValue (r.2.1.slot r.2.2)).2
  | [], _ => rfl
  | (l, b) :: c, hp => by
    rw [slotsOf_cons, lookup_append, firstHit]
    cases hm : b.occupied.findIdx? (Matches data h key) with
    | some i =>
      have lt := (List.findIdx?_eq_some_iff_getElem.mp hm).1
      simp [lookup, find?_of_findIdx? hm, List.getElem?_eq_getElem lt,
        Block.slot_of_lt (hp _ (List.mem_cons_self _ _)) lt]
    | none =>
      have miss := List.findIdx?_eq_none_iff.mp hm
      rw [lookup_eq_none miss, Option.none_or, lookup_slotsOf fun p m => hp p (List.mem_cons_of_mem _ m)]

/-- The block `firstHit` finds: no slot of the blocks before it holds the key, and the slot it
gives is the first of the block that does. -/
theorem firstHit_eq_some : ∀ {c : List (Loc × Block)} {l : Loc} {b : Block} {j : Nat},
    firstHit data h key c = some (l, b, j) →
      ∃ pre post, c = pre ++ (l, b) :: post ∧ (∀ x ∈ slotsOf pre, Matches data h key x = false) ∧
        b.occupied.findIdx? (Matches data h key) = some j
  | [], _, _, _, hf => by cases hf
  | (l', b') :: c, l, b, j, hf => by
    simp only [firstHit] at hf
    split at hf
    · cases hf
      exact ⟨[], c, rfl, by simp, ‹_›⟩
    · obtain ⟨pre, post, rfl, miss, first⟩ := firstHit_eq_some hf
      refine ⟨(l', b') :: pre, post, rfl, fun x m => ?_, first⟩
      rcases List.mem_append.mp m with m | m
      · exact List.findIdx?_eq_none_iff.mp ‹_› x m
      · exact miss x m

end Walk

/-! ## `Get` and `Has` over the chains of the invariant -/

/-- What the index holds for `key`, as `Get` reads it: if the presence filter has the key's
hash, the value of the first slot of its chain holding it. -/
def view (E : Env) (db : HashDB) (cs : List (List (Loc × Block))) (key : Bytes) : Option Bytes :=
  if E.test (E.hashOf key) then
    lookup db.data (E.hashOf key) key (slotsOf (cs.getD (db.blockIndex (E.hashOf key)).toNat []))
  else none

variable {E : Env}

section Reads
variable {db : HashDB} {cs : List (List (Loc × Block))} (inv : Inv E db cs) {i : Nat} (hi : i < cs.length)
include inv hi

/-- The keys of the slots of a chain read, as `Has`, `Delete` and `put` read them. -/
theorem chain_readKey : ∀ p ∈ cs[i], ∀ x ∈ p.2.occupied, db.data.readKey x = some (db.data.slotKey x) :=
  fun _ m _ mx => (inv.reads (Inv.mem_flatten hi m) mx).1

/-- The keys and values of the slots of a chain read, as `Get` reads them. -/
theorem chain_readKeyValue : ∀ p ∈ cs[i], ∀ x ∈ p.2.occupied, db.data.readKeyValue x = some (db.data.slotKeyValue x) :=
  fun _ m _ mx => (inv.reads (Inv.mem_flatten hi m) mx).2

end Reads

/-- `Get`, in a state with the invariant, returns (with no error) what the chains hold for the
key. -/
theorem get_eq_view (bs : 0 < E.blockSize) {db : HashDB} {cs : List (List (Loc × Block))} (inv : Inv E db cs)
    (key : Bytes) : db.get E key = some (view E db cs key) := by
  have hi := inv.blockIndex_lt (E.hashOf key)
  have reads := chain_readKeyValue inv hi
  have hp : ∀ p ∈ cs[(db.blockIndex (E.hashOf key)).toNat], p.2.Packed := fun p m => inv.packed p (Inv.mem_flatten hi m)
  unfold HashDB.get view
  split
  · rw [head_eq_headAt, inv.walk bs hi, List.getD_eq_getElem _ _ hi, lookup_slotsOf hp,
      @foldStop_scan (fun sl => (db.data.readKeyValue sl).map (·.1)) db.data (E.hashOf key) key _
        (getBlock db.data (E.hashOf key) key) none (fun _ b i => (db.data.readKeyValue (b.slot i)).map fun kv => some kv.2)
        (fun _ _ _ => rfl) _ _ (inv.linked _ hi) hp fun p m x mx => congrArg (Option.map (·.1)) (reads p m x mx)]
    cases hf : firstHit db.data (E.hashOf key) key cs[(db.blockIndex (E.hashOf key)).toNat] with
    | none => rfl
    | some r =>
      obtain ⟨l, b, j⟩ := r
      obtain ⟨pre, post, hc, -, first⟩ := firstHit_eq_some hf
      have lt := (List.findIdx?_eq_some_iff_getElem.mp first).1
      have mem : (l, b) ∈ cs[(db.blockIndex (E.hashOf key)).toNat] := by simp [hc]
      simp [Block.slot_of_lt (hp _ mem) lt, reads _ mem _ (List.getElem_mem lt)]
  · rfl

section Records
variable {data data' : DataFile} {r : Int} {key value : Bytes}

/-- A record written at `r` leaves what a slot's record holds if the slot's key and value lie
apart from the record: a slot of no octets holds nothing, wherever it points. -/
theorem slotKeyValue_apart {bytes : Bytes} (recs : data'.records = mapSet data.records r bytes) {n : Nat} (pos : 0 < n)
    {x : Slot} (apart : Apart x.extent (r, n)) : data'.slotKeyValue x = data.slotKeyValue x := by
  by_cases at_r : x.kvOffset = r
  · have empty : x.keySize.toNat = 0 ∧ x.valueSize.toNat = 0 := by
      simp only [Apart, Slot.extent, Slot.kvSize, at_r] at apart
      omega
    simp [DataFile.slotKeyValue, DataFile.slotKey, empty]
  · simp only [DataFile.slotKeyValue, DataFile.slotKey, DataFile.record, recs, mapGet_mapSet_ne _ _ (Ne.symm at_r)]

/-- `put`'s slot holds the key and the value when their lengths fit its `uint16` and `uint32`
sizes. -/
theorem slotKeyValue_putSlot (recs : data'.records = mapSet data.records r (key ++ value)) (hash expiresAt : UInt32)
    (short : key.length < 65536) (fits : value.length < 2 ^ 32) :
    data'.slotKeyValue (putSlot hash key value expiresAt r) = (key, value) := by
  have k : key.length.toUInt16.toNat = key.length := Nat.mod_eq_of_lt short
  have v : value.length.toUInt32.toNat = value.length := Nat.mod_eq_of_lt fits
  simp [DataFile.slotKeyValue, DataFile.slotKey, DataFile.record, recs, putSlot, k, v]

end Records

theorem extent_mem (n : Nat) {c : List (Loc × Block)} {x : Slot} (m : x ∈ slotsOf c) : x.extent ∈ c.flatMap (extents n) := by
  obtain ⟨p, mp, mx⟩ := List.mem_flatMap.mp m
  exact List.mem_flatMap.mpr ⟨p, mp, List.mem_append_right _ (List.mem_map_of_mem _ mx)⟩

theorem mem_slotsOf_flatten {cs : List (List (Loc × Block))} {j : Nat} {x : Slot} (m : x ∈ slotsOf (cs.getD j [])) :
    x ∈ slotsOf cs.flatten := by
  rw [List.getD_eq_getElem?_getD] at m
  cases h : cs[j]? with
  | none => simp [h] at m
  | some c =>
    rw [h, Option.getD_some] at m
    obtain ⟨p, mp, mx⟩ := List.mem_flatMap.mp m
    exact List.mem_flatMap.mpr ⟨p, List.mem_flatten.mpr ⟨c, List.getElem?_mem h, mp⟩, mx⟩

section Stop
variable {read : Slot → Option Bytes} {data : DataFile} {h : UInt32} {key : Bytes} {b : Block}

/-- No occupied slot of a block the loop passes holds the key. -/
theorem miss_of_pass (reads : ∀ x ∈ b.occupied, read x = some (data.slotKey x))
    (pass : b.entries.findIdx? (Stops read h key) = none) : ∀ x ∈ b.occupied, Matches data h key x = false := fun x m => by
  have := List.findIdx?_eq_none_iff.mp pass x (List.takeWhile_subset _ m)
  rw [stops_eq h key (reads x m)] at this
  exact (Bool.or_eq_false_iff.mp this).2

/-- A loop that stops at the first free slot of a packed block passed every occupied one. -/
theorem miss_of_free (hp : b.Packed) (reads : ∀ x ∈ b.occupied, read x = some (data.slotKey x))
    (hit : b.entries.findIdx? (Stops read h key) = some b.occupied.length) :
    ∀ x ∈ b.occupied, Matches data h key x = false := by
  rw [Block.findIdx?_stops hp stops_of_free, findIdx?_occupied reads] at hit
  cases hm : b.occupied.findIdx? (Matches data h key) with
  | none => exact List.findIdx?_eq_none_iff.mp hm
  | some i =>
    rw [hm, Option.or_some, Option.some.injEq] at hit
    exact absurd (hit ▸ (List.findIdx?_eq_some_iff_getElem.mp hm).1) (lt_irrefl _)

/-- A loop that stops at an occupied slot of a packed block stops at the first slot holding the
key. -/
theorem findIdx?_of_used (hp : b.Packed) (reads : ∀ x ∈ b.occupied, read x = some (data.slotKey x)) {j : Nat}
    (hit : b.entries.findIdx? (Stops read h key) = some j) (lt : j < b.occupied.length) :
    b.occupied.findIdx? (Matches data h key) = some j := by
  rw [Block.findIdx?_stops hp stops_of_free, findIdx?_occupied reads] at hit
  cases hm : b.occupied.findIdx? (Matches data h key) with
  | none =>
    rw [hm, Option.none_or] at hit
    split at hit
    · cases hit
      exact absurd lt (lt_irrefl _)
    · cases hit
  | some i =>
    rw [hm, Option.or_some] at hit
    exact hit

/-- A loop that passes a packed block finds it full. -/
theorem full_of_pass (hp : b.Packed) (pass : b.entries.findIdx? (Stops read h key) = none) :
    b.occupied.length = entriesPerBlock := by
  rw [Block.findIdx?_stops hp stops_of_free, Option.or_eq_none] at pass
  have := Block.occupied_length_le b
  by_contra ne
  rw [if_pos (by omega)] at pass
  cases pass.2

end Stop

/-- Every block of a chain but the last is full: the chains `put` and `split` build, where the
slot loops meet a free slot in the last block only. -/
def ChainFull (c : List (Loc × Block)) : Prop := ∀ p ∈ c.dropLast, p.2.occupied.length = entriesPerBlock

/-- A block with room in a full chain is its last. -/
theorem ChainFull.last_of_room {pre post : List (Loc × Block)} {p : Loc × Block} (h : ChainFull (pre ++ p :: post))
    (room : p.2.occupied.length < entriesPerBlock) : post = [] := by
  by_contra ne
  have := h p (by rw [List.dropLast_append_cons, List.dropLast_cons_of_ne_nil ne]; simp)
  omega

/-- A block put in place of one of a full chain keeps it full, if it is as full or the last. -/
theorem ChainFull.replace {pre post : List (Loc × Block)} {p p' : Loc × Block} (h : ChainFull (pre ++ p :: post))
    (same : post ≠ [] → p'.2.occupied.length = p.2.occupied.length) : ChainFull (pre ++ p' :: post) := by
  intro q m
  rw [List.dropLast_append_cons] at m
  by_cases ne : post = []
  · subst ne
    exact h q (by simpa using m)
  · have old : ∀ q, q ∈ pre ∨ q = p ∨ q ∈ post.dropLast → q ∈ (pre ++ p :: post).dropLast := fun q hq => by
      rw [List.dropLast_append_cons, List.dropLast_cons_of_ne_nil ne]
      simpa using hq
    rw [List.dropLast_cons_of_ne_nil ne] at m
    rcases (by simpa using m : q ∈ pre ∨ q = p' ∨ q ∈ post.dropLast) with hq | rfl | hq
    · exact h q (old q (.inl hq))
    · rw [same ne]
      exact h p (old p (.inr (.inl rfl)))
    · exact h q (old q (.inr (.inr hq)))

/-- What a `put` of `key` under `hash` that returned nil leaves, with `c'` the new blocks of the
key's chain: the invariant; the directory unchanged; a full chain kept full; in the chain, the
new slot where the slots `X` were (none, or the first slot holding the key), after slots `A` none
of which holds the key, and, when `X` is none and the chain was full, at its end; one more key
exactly when `X` is none; and the key and value written at the new slot's offset, apart from the
key and value of every slot there was. -/
structure PutShape (E : Env) (db db' : HashDB) (cs : List (List (Loc × Block))) (c' : List (Loc × Block))
    (hash : UInt32) (key value : Bytes) (expiresAt : UInt32) : Prop where
  inv : Inv E db' (cs.set (db.blockIndex hash).toNat c')
  level : db'.level = db.level
  splitIdx : db'.splitBlockIdx = db.splitBlockIdx
  full : ChainFull (cs.getD (db.blockIndex hash).toNat []) → ChainFull c'
  slots : ∃ A X B r, slotsOf (cs.getD (db.blockIndex hash).toNat []) = A ++ X ++ B ∧
    slotsOf c' = A ++ putSlot hash key value expiresAt r :: B ∧
    (∀ x ∈ A, Matches db.data hash key x = false) ∧ (∀ x ∈ X, Matches db.data hash key x = true) ∧
    (X = [] → ChainFull (cs.getD (db.blockIndex hash).toNat []) → B = []) ∧
    db'.count.toNat = db.count.toNat + (if X = [] then 1 else 0) ∧
    db'.data.records = mapSet db.data.records r (key ++ value) ∧
    ∀ x ∈ slotsOf cs.flatten, Apart x.extent (r, key.length + value.length)

theorem PutShape.count_le {db db' : HashDB} {cs : List (List (Loc × Block))} {c' : List (Loc × Block)} {hash : UInt32}
    {key value : Bytes} {expiresAt : UInt32} (sh : PutShape E db db' cs c' hash key value expiresAt) :
    db'.count.toNat ≤ db.count.toNat + 1 := by
  obtain ⟨-, X, -, -, -, -, -, -, -, count, -⟩ := sh.slots
  split at count <;> omega

section PutShape
variable {db : HashDB} {cs : List (List (Loc × Block))} {hash : UInt32} {key value : Bytes} {expiresAt : UInt32}
  (hs : 0 < E.headerSize) (bs : 0 < E.blockSize) (inv : Inv E db cs)
  (hi : (db.blockIndex hash).toNat < cs.length)

/-- The record `put` writes is apart from every slot's key and value. -/
theorem record_apart {f : DataFile} {e : Int × Nat} (L : Layout E.headerSize f (e :: cs.flatten.flatMap (extents E.blockSize))) :
    ∀ x ∈ slotsOf cs.flatten, Apart x.extent e :=
  fun _ m => L.apart_head _ (extent_mem _ m)

include hs bs inv hi

/-- `put` into the first free slot of a block of the chain. -/
theorem fill_shape {pre post : List (Loc × Block)} {l : Loc} {b : Block} {j : Nat}
    (hc : cs[(db.blockIndex hash).toNat] = pre ++ (l, b) :: post)
    (pass : ∀ p ∈ pre, p.2.entries.findIdx? (Stops db.data.readKey hash key) = none)
    (hit : b.entries.findIdx? (Stops db.data.readKey hash key) = some j) (free : (b.slot j).kvOffset = 0)
    (room : db.count ≠ maxKeys) :
    (db.put E hash key value expiresAt).2 = none ∧
      PutShape E db (db.put E hash key value expiresAt).1 cs
        (pre ++ (l, b.set j (putSlot hash key value expiresAt (db.data.writeKeyValue key value).2)) :: post)
        hash key value expiresAt := by
  have shape : Inv E (db.put E hash key value expiresAt).1 _ := inv.put_fill hs bs hi hc pass hit free room
  have hp : b.Packed := inv.packed (l, b) (Inv.mem_flatten hi (by simp [hc]))
  have reads := chain_readKey inv hi
  obtain ⟨rfl, space⟩ := Block.eq_of_findIdx?_free hp stops_of_free hit free
  rw [put_of_stop value expiresAt (inv.linked _ hi) (inv.stored_chain hi) (inv.length_le_walkFuel bs hi) hc pass hit
      fun used => absurd free used, putAt_new value expiresAt free room rfl] at shape ⊢
  obtain ⟨record, used⟩ := put_record_layout inv.layout hs hash key value expiresAt
  have occ := (Block.occupied_fill hp space used).1
  have chain : cs.getD (db.blockIndex hash).toNat [] = pre ++ (l, b) :: post := by rw [List.getD_eq_getElem _ _ hi, hc]
  refine ⟨rfl, shape, by simp, by simp, fun full => ?_, slotsOf pre ++ b.occupied, [], slotsOf post,
    (db.data.writeKeyValue key value).2, ?_, ?_, ?_, by simp, fun _ full => ?_, by simp [toNat_succ_of_ne_maxKeys room],
    by simp [DataFile.writeKeyValue_records], ?_⟩
  · rw [chain] at full
    obtain rfl := full.last_of_room space
    exact full.replace fun ne => absurd rfl ne
  · rw [chain]
    simp
  · simp [occ]
  · intro x m
    rcases List.mem_append.mp m with m | m
    · obtain ⟨p, mp, mx⟩ := List.mem_flatMap.mp m
      exact miss_of_pass (reads p (by simp [hc, mp])) (pass p mp) x mx
    · exact miss_of_free hp (reads (l, b) (by simp [hc])) hit x m
  · rw [chain] at full
    rw [full.last_of_room space]
    rfl
  · exact record_apart (inv.layout.writeKeyValue key value).1

/-- `put` into the slot of the chain holding the key: the slot rewritten. -/
theorem replace_shape {pre post : List (Loc × Block)} {l : Loc} {b : Block} {j : Nat}
    (hc : cs[(db.blockIndex hash).toNat] = pre ++ (l, b) :: post)
    (pass : ∀ p ∈ pre, p.2.entries.findIdx? (Stops db.data.readKey hash key) = none)
    (hit : b.entries.findIdx? (Stops db.data.readKey hash key) = some j) (used : (b.slot j).kvOffset ≠ 0) :
    (db.put E hash key value expiresAt).2 = none ∧
      PutShape E db (db.put E hash key value expiresAt).1 cs
        (pre ++ (l, b.set j (putSlot hash key value expiresAt (db.data.writeKeyValue key value).2)) :: post)
        hash key value expiresAt := by
  have shape : Inv E (db.put E hash key value expiresAt).1 _ := inv.put_replace hs bs hi hc pass hit used
  have hp : b.Packed := inv.packed (l, b) (Inv.mem_flatten hi (by simp [hc]))
  have reads := chain_readKey inv hi
  have lt := Block.lt_of_findIdx?_used hp stops_of_free hit used
  have first := findIdx?_of_used hp (reads (l, b) (by simp [hc])) hit lt
  have found := (List.findIdx?_eq_some_iff_getElem.mp first).2.1
  have back : (db.data.readKey (b.slot j)).isSome := by
    rw [reads (l, b) (by simp [hc]) _ (Block.slot_of_lt hp lt ▸ List.getElem_mem lt)]
    rfl
  rw [put_of_stop value expiresAt (inv.linked _ hi) (inv.stored_chain hi) (inv.length_le_walkFuel bs hi) hc pass hit
      fun _ => back, putAt_replace value expiresAt used rfl] at shape ⊢
  obtain ⟨-, pos⟩ := put_record_layout inv.layout hs hash key value expiresAt
  have occ := (Block.occupied_set hp lt pos).1
  have split : b.occupied = b.occupied.take j ++ b.occupied[j] :: b.occupied.drop (j + 1) := by
    rw [← List.drop_eq_getElem_cons lt, List.take_append_drop]
  refine ⟨rfl, shape, by simp, by simp, fun full => ?_, slotsOf pre ++ b.occupied.take j, [b.occupied[j]],
    b.occupied.drop (j + 1) ++ slotsOf post, (db.data.writeKeyValue key value).2, ?_, ?_, ?_, by simpa using found,
    fun nil => absurd nil (List.cons_ne_nil _ _), by simp, by simp [DataFile.writeKeyValue_records],
    record_apart (inv.layout.writeKeyValue key value).1⟩
  · rw [List.getD_eq_getElem _ _ hi, hc] at full
    exact full.replace fun _ => by simp [occ]
  · rw [List.getD_eq_getElem _ _ hi, hc]
    simp only [slotsOf_append, slotsOf_cons, List.append_assoc, List.singleton_append]
    rw [← List.cons_append, ← List.drop_eq_getElem_cons lt, ← List.append_assoc (List.take j _), List.take_append_drop]
  · rw [slotsOf_append, slotsOf_cons, occ, List.set_eq_take_append_cons_drop, if_pos lt]
    simp
  · intro x m
    rcases List.mem_append.mp m with m | m
    · obtain ⟨p, mp, mx⟩ := List.mem_flatMap.mp m
      exact miss_of_pass (reads p (by simp [hc, mp])) (pass p mp) x mx
    · exact take_miss first x m

/-- `put` of a key its chain has no stopping slot for: a new overflow block after the last. -/
theorem overflow_shape {pre : List (Loc × Block)} {l : Loc} {b : Block}
    (hc : cs[(db.blockIndex hash).toNat] = pre ++ [(l, b)])
    (miss : ∀ p ∈ cs[(db.blockIndex hash).toNat], p.2.entries.findIdx? (Stops db.data.readKey hash key) = none)
    (room : db.count ≠ maxKeys) :
    (db.put E hash key value expiresAt).2 = none ∧
      PutShape E db (db.put E hash key value expiresAt).1 cs
        (pre ++ [(l, b.setNext (db.data.allocate E.blockSize).2), (.data (db.data.allocate E.blockSize).2,
          Block.zero.set 0 (putSlot hash key value expiresAt ((db.data.allocate E.blockSize).1.writeKeyValue key value).2))])
        hash key value expiresAt := by
  have shape : Inv E (db.put E hash key value expiresAt).1 _ := inv.put_overflow hs bs hi hc miss room
  rw [put_of_overflow value expiresAt (inv.linked _ hi) (inv.stored_chain hi) (inv.length_le_walkFuel bs hi) hc miss,
    putAt_linked (s := ⟨_, (.data (db.data.allocate E.blockSize).2, .zero), some (l, b.setNext _), 0, false⟩) value
      expiresAt rfl room rfl] at shape ⊢
  have record := ((inv.layout.allocate E.blockSize).1.writeKeyValue key value).1
  have occ := (Block.zero_set_occupied (put_record_layout (inv.layout.allocate E.blockSize).1 hs hash key value
    expiresAt).2).1
  have full : ∀ p ∈ cs[(db.blockIndex hash).toNat], p.2.occupied.length = entriesPerBlock := fun p m =>
    full_of_pass (inv.packed p (Inv.mem_flatten hi m)) (miss p m)
  refine ⟨rfl, shape, by simp, by simp, fun _ q m => ?_, slotsOf cs[(db.blockIndex hash).toNat],
    [], [], ((db.data.allocate E.blockSize).1.writeKeyValue key value).2, ?_, ?_, ?_, by simp, fun _ _ => rfl,
    by simp [toNat_succ_of_ne_maxKeys room], by simp [DataFile.writeKeyValue_records],
    fun x m => record.apart_head _ (List.mem_cons_of_mem _ (extent_mem _ m))⟩
  · rcases (by simpa using m : q ∈ pre ∨ q = (l, b.setNext (db.data.allocate E.blockSize).2)) with m | rfl
    · exact full q (by simp [hc, m])
    · exact full (l, b) (by simp [hc])
  · rw [List.getD_eq_getElem _ _ hi]
    simp
  · rw [hc]
    simp [occ]
  · intro x m
    obtain ⟨p, mp, mx⟩ := List.mem_flatMap.mp m
    exact miss_of_pass (chain_readKey inv hi p mp) (miss p mp) x mx

/-- `put` below `MaxKeys`, in a state with the invariant, returns nil, in one of the three
shapes. -/
theorem put_shape (room : db.count ≠ maxKeys) : ∃ c', (db.put E hash key value expiresAt).2 = none ∧
    PutShape E db (db.put E hash key value expiresAt).1 cs c' hash key value expiresAt := by
  rcases first_some (fun p : Loc × Block => p.2.entries.findIdx? (Stops db.data.readKey hash key))
      cs[(db.blockIndex hash).toNat] with miss | ⟨pre, ⟨l, b⟩, post, j, hc, pass, hit⟩
  · obtain ⟨pre, ⟨l, b⟩, hc⟩ := inv.chain_last hi
    exact ⟨_, overflow_shape hs bs inv hi hc miss room⟩
  · by_cases free : (b.slot j).kvOffset = 0
    · exact ⟨_, fill_shape hs bs inv hi hc pass hit free room⟩
    · exact ⟨_, replace_shape hs bs inv hi hc pass hit free⟩

end PutShape

/-- After a `put` of a non-empty key under its own hash that returned nil, `Get` of the key
returns the value put, if the filter has the key's hash, and `Get` of every other key what it
returned before. -/
theorem PutShape.view_update {db db' : HashDB} {cs : List (List (Loc × Block))} {c' : List (Loc × Block)} {key value : Bytes}
    {expiresAt : UInt32} (sh : PutShape E db db' cs c' (E.hashOf key) key value expiresAt) (inv : Inv E db cs)
    (nonempty : key ≠ []) (short : key.length < 65536) (fits : value.length < 2 ^ 32) :
    view E db' (cs.set (db.blockIndex (E.hashOf key)).toNat c') =
      Function.update (view E db cs) key (if E.test (E.hashOf key) then some value else none) := by
  obtain ⟨A, X, B, r, old, new, missA, hitX, -, -, recs, apart⟩ := sh.slots
  have pos : 0 < key.length + value.length := by
    have := List.length_pos.mpr nonempty
    omega
  have same : ∀ x ∈ A ++ X ++ B, db'.data.slotKeyValue x = db.data.slotKeyValue x :=
    fun x m => slotKeyValue_apart recs pos (apart x (mem_slotsOf_flatten (old ▸ m)))
  have back := slotKeyValue_putSlot recs (E.hashOf key) expiresAt short fits
  have holds : Matches db'.data (E.hashOf key) key (putSlot (E.hashOf key) key value expiresAt r) = true := by
    have read : db'.data.slotKey (putSlot (E.hashOf key) key value expiresAt r) = key := congrArg Prod.fst back
    simp only [Matches, read]
    simp [putSlot]
  have hi := inv.blockIndex_lt (E.hashOf key)
  funext k
  unfold view
  rw [blockIndex_congr sh.level sh.splitIdx]
  by_cases hk : k = key
  · subst hk
    rw [Function.update_same, getD_set_self (by simpa using hi), new, lookup_append,
      lookup_congr fun x m => same x (by simp [m]), lookup_eq_none missA, Option.none_or,
      lookup_cons_of_matches holds, back]
  · rw [Function.update_noteq hk]
    split
    · by_cases hj : (db.blockIndex (E.hashOf k)).toNat = (db.blockIndex (E.hashOf key)).toNat
      · rw [hj, getD_set_self (by simpa using hi), new, old]
        exact lookup_splice (fun x m => matches_other (hitX x m) hk _) (matches_other holds hk _)
          fun x m => same x (by simp only [List.mem_append] at m ⊢; tauto)
      · rw [getD_set_ne _ (Ne.symm hj)]
        exact lookup_congr fun x m => slotKeyValue_apart recs pos (apart x (mem_slotsOf_flatten m))
    · rfl

/-! ## `split` and `Delete` -/

/-- What a slot's record holds depends on the records only. -/
theorem slotKeyValue_of_records {data data' : DataFile} (recs : data'.records = data.records) (x : Slot) :
    data'.slotKeyValue x = data.slotKeyValue x := by
  simp [DataFile.slotKeyValue, DataFile.slotKey, DataFile.record, recs]

/-- Looking up a key among slots that keep every slot holding it looks up the same. -/
theorem lookup_filter {data : DataFile} {h : UInt32} {key : Bytes} {q : Slot → Bool} (S : List Slot)
    (keep : ∀ x, Matches data h key x = true → q x = true) : lookup data h key (S.filter q) = lookup data h key S := by
  have pred : (fun x => decide (q x = true ∧ Matches data h key x = true)) = Matches data h key := by
    funext x
    by_cases hx : Matches data h key x = true <;> simp [hx, keep x]
  simp only [lookup, List.find?_filter, pred]

theorem foldl_free_records (n : Nat) : ∀ (offs : List Int) (f : DataFile),
    (offs.foldl (fun f off => f.free n off) f).records = f.records
  | [], _ => rfl
  | _ :: offs, _ => foldl_free_records n offs _

/-- An entry writer's `insert` allocates an overflow block at most, and writes no record. -/
theorem insert_records {w : EntryWriter} {data : DataFile} {sl : Slot} {allocErr : Option Error}
    {r : EntryWriter × DataFile} (ok : w.insert E data sl allocErr = .ok r) : r.2.records = data.records := by
  have reliable := EntryWriter.insert_of_ok ok
  unfold EntryWriter.insert at reliable
  split at reliable <;> cases reliable <;> simp

/-- `split`'s writers write no record. -/
theorem foldl_routeSlot_records (g : HashDB) (s0 : UInt32) (io : SplitIO) :
    ∀ (occ : List Slot) (st : SplitScan), (occ.foldl (routeSlot E g s0 io) st).data.records = st.data.records
  | [], _ => rfl
  | sl :: occ, st => by
    rw [List.foldl_cons, foldl_routeSlot_records g s0 io occ]
    unfold routeSlot
    split
    · rfl
    · dsimp only
      split <;> split
      all_goals first | rfl | exact insert_records ‹_›

theorem foldl_writeBlock_records : ∀ (ws : List (Loc × Block)) (db : HashDB),
    (ws.foldl (fun db lb => db.writeBlock lb.1 lb.2) db).data.records = db.data.records
  | [], _ => rfl
  | w :: ws, db => by rw [List.foldl_cons, foldl_writeBlock_records ws, HashDB.writeBlock_records]

/-- `split` writes no record, whichever of its calls fails. -/
theorem split_records (db : HashDB) (io : SplitIO) : (db.split E io).1.data.records = db.data.records := by
  have keeps : ∀ st l b, st.data.records = db.data.records →
      (splitBlock E (db.grow E) db.splitBlockIdx io st l b).1.data.records = db.data.records := fun st l b h => by
    rw [splitBlock_eq]
    split <;> exact (foldl_routeSlot_records _ _ _ _ st).trans h
  unfold HashDB.split
  split
  · rfl
  · split
    · rfl
    · rename_i st walk
      have kept := forEachBlock_preserves (fun st : SplitScan => st.data.records = db.data.records) keeps rfl walk
      dsimp only
      split <;> simp only [HashDB.splitAt, foldl_writeBlock_records, foldl_free_records, kept]

/-- The chains after a split: the split chain's slots kept at its place, the new chain's at the
end; the others where they were. -/
theorem getD_split {cs : List (List (Loc × Block))} {i : Nat} (hi : i < cs.length) (u c : List (Loc × Block)) (j : Nat) :
    (cs.set i u ++ [c]).getD j [] = if j = i then u else if j = cs.length then c else cs.getD j [] := by
  rcases Nat.lt_or_ge j cs.length with lt | ge
  · rw [List.getD_append _ _ _ _ (by simpa using lt), if_neg (Nat.ne_of_lt lt)]
    split
    · subst j
      exact getD_set_self hi u []
    · exact getD_set_ne cs (Ne.symm ‹_›) u []
  · rw [List.getD_append_right _ _ _ _ (by simpa using ge), if_neg (by omega), List.getD_eq_default _ _ ge]
    split
    · subst j
      simp
    · rw [List.getD_eq_default _ _ (by simp; omega)]

section Split
variable {db : HashDB} {cs : List (List (Loc × Block))} (hs : 0 < E.headerSize) (bs : 0 < E.blockSize)
  (inv : Inv E db cs)
include hs bs inv

/-- `split` keeps what `Get` returns for every key: its walk sends the slots of the split chain
to the chain their hash now picks, in order, and no record moves. -/
theorem split_view_at (room : db.nBlocks.toNat + 1 < 2 ^ 32) {st : SplitScan} {upd cre : Loc} {R : List (Int × Nat)}
    (hi : db.splitBlockIdx.toNat < cs.length)
    (holds : st.Holds E (db.grow E) db.splitBlockIdx upd cre R (cs[db.splitBlockIdx.toNat].flatMap (·.2.occupied))) :
    view E (db.split E .reliable).1 (cs.set db.splitBlockIdx.toNat st.updated.blocks ++ [st.created.blocks]) = view E db cs := by
  obtain ⟨-, -, lv, sp⟩ := inv.split_ok hs bs
  have nBlocks := inv.nBlocks_eq
  have lv' := HashDB.grow_level_lt E inv.level_lt inv.split_lt (by rw [inv.length_eq] at hi; omega)
  have length := inv.length_eq
  funext k
  unfold view
  split
  · rw [lookup_congr fun x _ => slotKeyValue_of_records (split_records db .reliable) x, blockIndex_congr lv sp,
      getD_split hi]
    have moved := HashDB.blockIndex_grow E inv.level_lt inv.split_lt lv' (E.hashOf k)
    have hash : ∀ x, Matches db.data (E.hashOf k) k x = true → x.hash = E.hashOf k := fun x hx => by
      simp only [Matches, Bool.and_eq_true, decide_eq_true_eq] at hx
      exact hx.1.1.symm
    by_cases hj : (db.blockIndex (E.hashOf k)).toNat = db.splitBlockIdx.toNat
    · rw [hj, List.getD_eq_getElem _ _ hi]
      rcases moved.2 hj with stay | up
      · rw [if_pos stay]
        unfold slotsOf
        rw [holds.updated.slots]
        exact lookup_filter _ fun x hx => by rw [hash x hx]; exact decide_eq_true (UInt32.toNat.inj stay)
      · have ne : ((db.grow E).blockIndex (E.hashOf k)).toNat ≠ db.splitBlockIdx.toNat := by
          have := Nat.two_pow_pos db.level.toNat
          omega
        rw [if_neg ne, if_pos (by omega)]
        unfold slotsOf
        rw [holds.created.slots]
        exact lookup_filter _ fun x hx => by
          rw [hash x hx]
          exact decide_eq_true fun same => ne (congrArg UInt32.toNat same)
    · have below := inv.blockIndex_lt (E.hashOf k)
      rw [moved.1 hj, if_neg hj, if_neg (by omega)]
  · rfl

/-- `split`, in a state with the invariant and as long as `nBlocks + 1` does not wrap, returns
nil, keeps the count, and `Get` returns the same for every key. -/
theorem split_view (room : db.nBlocks.toNat + 1 < 2 ^ 32) :
    ∃ cs', (db.split E .reliable).2 = none ∧ Inv E (db.split E .reliable).1 cs' ∧ (db.split E .reliable).1.count = db.count ∧
      view E (db.split E .reliable).1 cs' = view E db cs := by
  have hi := inv.split_lt_length
  obtain ⟨st, eq, holds, over⟩ := inv.split_walk hs bs hi
  obtain ⟨-, -, -, count, -⟩ := splitAt_fields (db.grow E) st
  exact ⟨_, by rw [eq], inv.split_chains bs room hi eq holds over, by rw [eq]; exact count,
    split_view_at hs bs inv room hi holds⟩

/-- `split` adds one block, as long as `nBlocks + 1` does not wrap. -/
theorem split_nBlocks (room : db.nBlocks.toNat + 1 < 2 ^ 32) :
    (db.split E .reliable).1.nBlocks.toNat = db.nBlocks.toNat + 1 := by
  rw [(inv.split_ok hs bs).2.1, show (db.nBlocks + 1).toNat = (db.nBlocks.toNat + 1) % 2 ^ 32 from BitVec.toNat_add _ _]
  exact Nat.mod_eq_of_lt room

end Split

section Delete
variable {db : HashDB} {cs : List (List (Loc × Block))} (bs : 0 < E.blockSize) (inv : Inv E db cs)
include bs inv

end Delete

/-- A `put` as its callers make it: under the key's own hash, which the presence filter has, with
a key of 1 to `MaxKeyLength - 1` octets and a value shorter than `2 ^ 32` octets; or a `split`
none of whose calls fails. -/
def keyed (E : Env) : IndexOp → Bool
  | .put hash key value _ =>
    hash == E.hashOf key && E.test hash && !key.isEmpty && decide (key.length < 65536) && decide (value.length < 2 ^ 32)
  | .delete _ => false
  | .split io => decide (io = .reliable)

theorem keyed_put {hash : UInt32} {key value : Bytes} {expiresAt : UInt32}
    (h : keyed E (.put hash key value expiresAt) = true) :
    hash = E.hashOf key ∧ E.test hash = true ∧ key ≠ [] ∧ key.length < 65536 ∧ value.length < 2 ^ 32 := by
  simp only [keyed, Bool.and_eq_true, beq_iff_eq, Bool.not_eq_true', List.isEmpty_eq_false, decide_eq_true_eq] at h
  obtain ⟨⟨⟨⟨rfl, test⟩, nonempty⟩, short⟩, fits⟩ := h
  exact ⟨rfl, test, nonempty, short, fits⟩

/-- A count below `MaxKeys` lets `put` add a key. -/
theorem ne_maxKeys {db : HashDB} (below : db.count.toNat < 2 ^ 32 - 1) : db.count ≠ maxKeys := fun h => by
  rw [h, show maxKeys.toNat = 2 ^ 32 - 1 from rfl] at below
  omega

/-- What an operation does to a map from keys to values: `put` sets the key, `Delete` erases it,
`split` changes nothing. -/
def applyOp (m : Bytes → Option Bytes) : IndexOp → Bytes → Option Bytes
  | .put _ key value _ => Function.update m key (some value)
  | .delete key => Function.update m key none
  | .split _ => m

/-- In a state with the invariant, `Get` returns what the chains hold. -/
theorem get_join (bs : 0 < E.blockSize) {db : HashDB} {cs : List (List (Loc × Block))} (inv : Inv E db cs) :
    (fun k => (db.get E k).join) = view E db cs := by
  funext k
  rw [get_eq_view bs inv]
  rfl

/-- From any state with the invariant, a run of `put`s as their callers make them and `split`s,
short enough that neither the count nor `nBlocks` wraps, returns nil at every call, and `Get` then
returns for every key the value of its last `put` in the run, or what it returned before. -/
theorem get_after_puts (E : Env) (hs : 0 < E.headerSize) (bs : 0 < E.blockSize) :
    ∀ (ops : List IndexOp) {db : HashDB} {cs : List (List (Loc × Block))}, Inv E db cs →
      (∀ op ∈ ops, keyed E op = true) → db.count.toNat + ops.length < 2 ^ 32 - 1 →
        db.nBlocks.toNat + ops.length < 2 ^ 32 →
          (db.run E ops).2 = List.replicate ops.length none ∧
            ∀ key, (db.run E ops).1.get E key = some (ops.foldl applyOp (fun k => (db.get E k).join) key)
  | [], db, cs, inv, _, _, _ => ⟨rfl, fun key => by
    show db.get E key = some (db.get E key).join
    rw [get_eq_view bs inv]
    rfl⟩
  | op :: ops, db, cs, inv, keyedOps, room, blocks => by
    have rest := fun op' (m : op' ∈ ops) => keyedOps op' (List.mem_cons_of_mem _ m)
    have this := keyedOps op (List.mem_cons_self _ _)
    simp only [List.length_cons] at room blocks
    cases op with
    | put hash key value expiresAt =>
      obtain ⟨rfl, test, nonempty, short, fits⟩ := keyed_put this
      obtain ⟨c', ok, sh⟩ : ∃ c', (db.put E (E.hashOf key) key value expiresAt).2 = none ∧
          PutShape E db (db.put E (E.hashOf key) key value expiresAt).1 cs c' (E.hashOf key) key value expiresAt :=
        put_shape hs bs inv (inv.blockIndex_lt _) (ne_maxKeys (by omega))
      have step := get_after_puts E hs bs ops sh.inv rest (by have := sh.count_le; omega)
        (by rw [put_nBlocks]; omega)
      refine ⟨by rw [HashDB.run, HashDB.step, ok, step.1]; rfl, fun k => ?_⟩
      rw [HashDB.run, HashDB.step, step.2, List.foldl_cons, get_join bs sh.inv, sh.view_update inv nonempty short fits,
        get_join bs inv, test, if_pos rfl]
      rfl
    | delete key => cases this
    | split io =>
      obtain rfl : io = .reliable := of_decide_eq_true this
      obtain ⟨cs', ok, inv', count, same⟩ := split_view hs bs inv (by omega)
      have step := get_after_puts E hs bs ops inv' rest (by rw [count]; omega)
        (by rw [split_nBlocks hs bs inv (by omega)]; omega)
      refine ⟨by rw [HashDB.run, HashDB.step, ok, step.1]; rfl, fun k => ?_⟩
      rw [HashDB.run, HashDB.step, step.2, List.foldl_cons, get_join bs inv', same, ← get_join bs inv]
      rfl

/-- Two `put`s of one key around a `split` and a `put` of another, from a fresh index with one
hash for every key. -/
theorem get_after_puts_fresh :
    ((HashDB.fresh pageEnv).run pageEnv [.put 0 [7] [8] 0, .split .reliable, .put 0 [9] [1] 0, .put 0 [7] [2] 0]).2 =
        List.replicate 4 none ∧
      ∀ key, ((HashDB.fresh pageEnv).run pageEnv [.put 0 [7] [8] 0, .split .reliable, .put 0 [9] [1] 0, .put 0 [7] [2] 0]).1.get
        pageEnv key = some ([IndexOp.put 0 [7] [8] 0, .split .reliable, .put 0 [9] [1] 0, .put 0 [7] [2] 0].foldl applyOp
          (fun k => ((HashDB.fresh pageEnv).get pageEnv k).join) key) :=
  get_after_puts pageEnv (by decide) (by decide) _ fresh_inv (by decide) (by decide) (by decide)

end UnitDB.Guarantees.LinearHashGet
