import Mathlib.Data.Finset.Card
import UnitDB.Guarantees.LinearHashGet

/-!
# Each key in one slot, and what `Count` counts

`put` stops at the first slot of the key's chain that is free or holds the key. In a chain whose
blocks are full but for the last (`ChainFull`), every free slot comes after every occupied one, so
a `put` of a key the chain holds rewrites its slot, and a `put` of a key it does not hold adds a
slot and one to the count; `split` builds chains of that shape again. So runs of `put` and `split`
keep each key in at most one slot of its chain (`Tidy.put`, `Tidy.split`, `Tidy.run`), and from
`Open`:

* `Count` returns the number of distinct keys put (`count_after_puts`);
* `Delete` of any key returns nil, `Get` of the key then returns nothing, and `Get` of every other
  key what it returned before (`delete_after_puts`).

`Delete` does not keep `ChainFull`: it shifts the slots of one block left and leaves a free slot
in it, also in a block before the last. A `put` of a key held in a later block stops at that free
slot and leaves a second copy, which `Count` counts and a later `Delete` uncovers.
-/

set_option autoImplicit false

namespace UnitDB.Guarantees.LinearHashKeys
open UnitDB.Source UnitDB.Source.LinearHash UnitDB.Guarantees.LinearHashInvariant UnitDB.Guarantees.LinearHashGet

variable {E : Env}

/-- What runs of `put` and `split` keep beside the invariant: every chain is full but for its last
block, and no chain holds a key, under the key's hash, in two slots. -/
structure Tidy (E : Env) (db : HashDB) (cs : List (List (Loc × Block))) : Prop where
  full : ∀ c ∈ cs, ChainFull c
  once : ∀ key, ∀ c ∈ cs, ((slotsOf c).filter (Matches db.data (E.hashOf key) key)).length ≤ 1

theorem fresh_tidy : Tidy E (HashDB.fresh E) [[(headAt E 0, .zero)]] where
  full c m p mp := by
    rw [List.mem_singleton.mp m] at mp
    cases mp
  once key c m := by
    rw [List.mem_singleton.mp m]
    simp [Block.zero_occupied.1]

/-- Slots whose records hold the same in two data files hold the same keys. -/
theorem filter_matches_congr {data data' : DataFile} {S : List Slot}
    (same : ∀ x ∈ S, data'.slotKeyValue x = data.slotKeyValue x) (h : UInt32) (key : Bytes) :
    S.filter (Matches data' h key) = S.filter (Matches data h key) :=
  List.filter_congr fun x m => by
    have key_eq : data'.slotKey x = data.slotKey x := congrArg Prod.fst (same x m)
    simp only [Matches, key_eq]

/-- `put`'s slot holds its key when the key's length fits its `uint16` size. -/
theorem slotKey_putSlot {data data' : DataFile} {r : Int} {key value : Bytes}
    (recs : data'.records = mapSet data.records r (key ++ value)) (hash expiresAt : UInt32) (short : key.length < 65536) :
    data'.slotKey (putSlot hash key value expiresAt r) = key := by
  have k : key.length.toUInt16.toNat = key.length := Nat.mod_eq_of_lt short
  simp [DataFile.slotKey, DataFile.record, recs, putSlot, k]

theorem mem_slotsOf_of_mem {cs : List (List (Loc × Block))} {c : List (Loc × Block)} (hc : c ∈ cs) {x : Slot}
    (m : x ∈ slotsOf c) : x ∈ slotsOf cs.flatten := by
  obtain ⟨p, mp, mx⟩ := List.mem_flatMap.mp m
  exact List.mem_flatMap.mpr ⟨p, List.mem_flatten.mpr ⟨c, hc, mp⟩, mx⟩

/-! ## `put` and `split` -/

section Steps
variable {db : HashDB} {cs : List (List (Loc × Block))} (hs : 0 < E.headerSize) (bs : 0 < E.blockSize)
  (inv : Inv E db cs) (tidy : Tidy E db cs)
include hs bs inv tidy

/-- A `put` of a non-empty key under its own hash, below `MaxKeys`, keeps `Tidy`, and adds one to
the count exactly when the chain did not hold the key. -/
theorem Tidy.put (key value : Bytes) (expiresAt : UInt32) (nonempty : key ≠ []) (short : key.length < 65536)
    (room : db.count ≠ maxKeys) :
    ∃ c', (db.put E (E.hashOf key) key value expiresAt).2 = none ∧
      PutShape E db (db.put E (E.hashOf key) key value expiresAt).1 cs c' (E.hashOf key) key value expiresAt ∧
      Tidy E (db.put E (E.hashOf key) key value expiresAt).1 (cs.set (db.blockIndex (E.hashOf key)).toNat c') ∧
      (db.put E (E.hashOf key) key value expiresAt).1.count.toNat = db.count.toNat +
        (if lookup db.data (E.hashOf key) key (slotsOf (cs.getD (db.blockIndex (E.hashOf key)).toNat [])) = none
          then 1 else 0) := by
  have hi := inv.blockIndex_lt (E.hashOf key)
  obtain ⟨c', ok, sh⟩ : ∃ c', (db.put E (E.hashOf key) key value expiresAt).2 = none ∧
      PutShape E db (db.put E (E.hashOf key) key value expiresAt).1 cs c' (E.hashOf key) key value expiresAt :=
    put_shape hs bs inv hi room
  obtain ⟨A, X, B, r, old, new, missA, hitX, fresh, count, recs, apart⟩ := sh.slots
  have pos : 0 < key.length + value.length := Nat.add_pos_left (List.length_pos.mpr nonempty) _
  have same : ∀ x ∈ slotsOf cs.flatten,
      (db.put E (E.hashOf key) key value expiresAt).1.data.slotKeyValue x = db.data.slotKeyValue x :=
    fun x m => slotKeyValue_apart recs pos (apart x m)
  have chain : cs.getD (db.blockIndex (E.hashOf key)).toNat [] ∈ cs := by
    rw [List.getD_eq_getElem _ _ hi]
    exact List.getElem_mem hi
  have full := tidy.full _ chain
  have sameAXB : ∀ x ∈ A ++ X ++ B,
      (db.put E (E.hashOf key) key value expiresAt).1.data.slotKeyValue x = db.data.slotKeyValue x :=
    fun x m => same x (mem_slotsOf_of_mem chain (old ▸ m))
  -- the slots after the new one do not hold the key: none are left when `put` stopped at a free
  -- slot, and the one slot holding it was `X` otherwise
  have missB : ∀ x ∈ B, Matches db.data (E.hashOf key) key x = false := by
    rcases X with _ | ⟨x, X⟩
    · rw [fresh rfl full]
      exact fun _ m => absurd m (List.not_mem_nil _)
    · have once := tidy.once key _ chain
      rw [old, List.filter_append, List.filter_append, List.filter_eq_nil_iff.mpr fun y m => by simp [missA y m],
        List.filter_eq_self.mpr hitX] at once
      simp only [List.nil_append, List.length_append, List.length_cons] at once
      intro y m
      simpa using List.filter_eq_nil_iff.mp (List.length_eq_zero.mp (by omega)) y m
  refine ⟨c', ok, sh, ⟨fun c m => ?_, fun k c m => ?_⟩, ?_⟩
  · rcases List.mem_or_eq_of_mem_set m with m | rfl
    · exact tidy.full c m
    · exact sh.full full
  · rcases List.mem_or_eq_of_mem_set m with m | rfl
    · rw [filter_matches_congr fun x mx => same x (mem_slotsOf_of_mem m mx)]
      exact tidy.once k c m
    · rw [new, List.filter_append, List.filter_cons, filter_matches_congr fun x mx => sameAXB x (by simp [mx]),
        filter_matches_congr fun x mx => sameAXB x (by simp [mx])]
      by_cases hk : k = key
      · subst hk
        rw [List.filter_eq_nil_iff.mpr fun y m => by simp [missA y m], List.filter_eq_nil_iff.mpr fun y m => by simp [missB y m]]
        split <;> simp
      · have miss : Matches (db.put E (E.hashOf key) key value expiresAt).1.data (E.hashOf k) k
            (putSlot (E.hashOf key) key value expiresAt r) = false := by
          simp [Matches, slotKey_putSlot recs _ _ short, Ne.symm hk]
        have sub : List.Sublist (A ++ B) (slotsOf (cs.getD (db.blockIndex (E.hashOf key)).toNat [])) := by
          rw [old, List.append_assoc]
          exact (List.sublist_append_right X B).append_left A
        rw [miss, if_neg Bool.false_ne_true, ← List.filter_append]
        exact le_trans (sub.filter _).length_le (tidy.once k _ chain)
  · rw [count, old]
    rcases X with _ | ⟨x, X⟩
    · rw [fresh rfl full, List.append_nil, List.append_nil, lookup_eq_none missA]
      rfl
    · rw [lookup_append, lookup_append, lookup_eq_none missA, Option.none_or,
        lookup_cons_of_matches (hitX x (List.mem_cons_self _ _))]
      rfl

/-- `split`, as long as `nBlocks + 1` does not wrap, keeps `Tidy`: the writers fill each block
before the next, and the slots each writer gets are some of the split chain's. -/
theorem Tidy.split (room : db.nBlocks.toNat + 1 < 2 ^ 32) :
    ∃ cs', (db.split E .reliable).2 = none ∧ Inv E (db.split E .reliable).1 cs' ∧ Tidy E (db.split E .reliable).1 cs' ∧
      (db.split E .reliable).1.count = db.count ∧ view E (db.split E .reliable).1 cs' = view E db cs := by
  have hi := inv.split_lt_length
  obtain ⟨st, eq, holds, over⟩ := inv.split_walk hs bs hi
  obtain ⟨-, -, -, count, -⟩ := splitAt_fields (db.grow E) st
  have reads : ∀ (S : List Slot) h k, S.filter (Matches (db.split E .reliable).1.data h k) = S.filter (Matches db.data h k) :=
    fun S => filter_matches_congr fun x _ => slotKeyValue_of_records (split_records db .reliable) x
  have written : ∀ {w : EntryWriter} {start : Loc} {q : Slot → Bool},
      w.Holds start ((cs[db.splitBlockIdx.toNat].flatMap (·.2.occupied)).filter q) →
      ChainFull w.blocks ∧ ∀ k, ((slotsOf w.blocks).filter (Matches db.data (E.hashOf k) k)).length ≤ 1 := by
    intro w start q hw
    refine ⟨fun p m => hw.full p (by simpa [EntryWriter.blocks] using m), fun k => ?_⟩
    unfold slotsOf
    rw [hw.slots]
    exact le_trans ((List.filter_sublist _).filter _).length_le (tidy.once k _ (List.getElem_mem hi))
  have upd := written holds.updated
  have cre := written holds.created
  refine ⟨_, by rw [eq], inv.split_chains bs room hi eq holds over, ⟨fun c m => ?_, fun k c m => ?_⟩,
    by rw [eq]; exact count, split_view_at hs bs inv room hi holds⟩
  · rcases List.mem_append.mp m with m | m
    · rcases List.mem_or_eq_of_mem_set m with m | rfl
      · exact tidy.full c m
      · exact upd.1
    · rw [List.mem_singleton.mp m]
      exact cre.1
  · rw [reads]
    rcases List.mem_append.mp m with m | m
    · rcases List.mem_or_eq_of_mem_set m with m | rfl
      · exact tidy.once k c m
      · exact upd.2 k
    · rw [List.mem_singleton.mp m]
      exact cre.2 k

end Steps

/-! ## Runs -/

/-- The keys of a run's `put`s. -/
def putKeys : List IndexOp → List Bytes
  | [] => []
  | .put _ key _ _ :: ops => key :: putKeys ops
  | _ :: ops => putKeys ops

/-- The keys a map does not have, among `key` and `T`: `key` if the map does not have it, and the
keys of `T` the map with `key` set does not have. -/
theorem card_filter_insert (m : Bytes → Option Bytes) (key value : Bytes) (T : Finset Bytes) :
    ((insert key T).filter fun k => m k = none).card =
      (if m key = none then 1 else 0) + (T.filter fun k => Function.update m key (some value) k = none).card := by
  have erase : (T.filter fun k => Function.update m key (some value) k = none) = (T.filter fun k => m k = none).erase key := by
    ext k
    by_cases hk : k = key <;> simp [hk]
  rw [erase, Finset.filter_insert]
  by_cases hm : m key = none
  · rw [if_pos hm, if_pos hm, ← Finset.card_erase_add_one (Finset.mem_insert_self key _), Finset.erase_insert_eq_erase,
      Nat.add_comm]
  · have out : key ∉ T.filter (fun k => m k = none) := fun mem => hm (Finset.mem_filter.mp mem).2
    rw [if_neg hm, if_neg hm, Finset.erase_eq_of_not_mem out, Nat.zero_add]

/-- From a state with the invariant and `Tidy`, a run of `put`s as their callers make them and
`split`s, short enough that neither the count nor `nBlocks` wraps, keeps both, and adds to the
count one for each distinct key put that `Get` did not find before the run. -/
theorem Tidy.run (hs : 0 < E.headerSize) (bs : 0 < E.blockSize) :
    ∀ (ops : List IndexOp) {db : HashDB} {cs : List (List (Loc × Block))}, Inv E db cs → Tidy E db cs →
      (∀ op ∈ ops, keyed E op = true) → db.count.toNat + ops.length < 2 ^ 32 - 1 →
        db.nBlocks.toNat + ops.length < 2 ^ 32 →
          ∃ cs', Inv E (db.run E ops).1 cs' ∧ Tidy E (db.run E ops).1 cs' ∧
            (db.run E ops).1.count.toNat =
              db.count.toNat + ((putKeys ops).toFinset.filter fun k => view E db cs k = none).card
  | [], _, cs, inv, tidy, _, _, _ => ⟨cs, inv, tidy, by simp [putKeys, HashDB.run]⟩
  | op :: ops, db, cs, inv, tidy, keyedOps, room, blocks => by
    have rest := fun op' (m : op' ∈ ops) => keyedOps op' (List.mem_cons_of_mem _ m)
    have this := keyedOps op (List.mem_cons_self _ _)
    simp only [List.length_cons] at room blocks
    cases op with
    | put hash key value expiresAt =>
      obtain ⟨rfl, test, nonempty, short, fits⟩ := keyed_put this
      obtain ⟨c', -, sh, tidy', count⟩ :=
        Tidy.put hs bs inv tidy key value expiresAt nonempty short (ne_maxKeys (by omega))
      obtain ⟨cs', inv', tidy'', count'⟩ :=
        Tidy.run hs bs ops sh.inv tidy' rest (by have := sh.count_le; omega) (by rw [put_nBlocks]; omega)
      refine ⟨cs', inv', tidy'', ?_⟩
      have found : view E db cs key = lookup db.data (E.hashOf key) key
          (slotsOf (cs.getD (db.blockIndex (E.hashOf key)).toNat [])) := if_pos test
      show ((db.put E (E.hashOf key) key value expiresAt).1.run E ops).1.count.toNat = _
      rw [count', count, sh.view_update inv nonempty short fits, if_pos test, putKeys, List.toFinset_cons,
        card_filter_insert (view E db cs) key value, found, Nat.add_assoc]
    | delete key => cases this
    | split io =>
      obtain rfl : io = .reliable := of_decide_eq_true this
      obtain ⟨cs', -, inv', tidy', count, same⟩ := Tidy.split hs bs inv tidy (by omega)
      obtain ⟨cs'', inv'', tidy'', count'⟩ :=
        Tidy.run hs bs ops inv' tidy' rest (by rw [count]; omega) (by rw [split_nBlocks hs bs inv (by omega)]; omega)
      refine ⟨cs'', inv'', tidy'', ?_⟩
      show ((db.split E .reliable).1.run E ops).1.count.toNat = _
      rw [count', count, same]
      rfl

/-- A fresh index holds no key. -/
theorem view_fresh (k : Bytes) : view E (HashDB.fresh E) [[(headAt E 0, .zero)]] k = none := by
  have empty : ∀ j, slotsOf ([[(headAt E 0, Block.zero)]].getD j []) = [] := by
    intro j
    rcases j with _ | j <;> simp [Block.zero_occupied.1]
  simp only [view, empty]
  split <;> rfl

/-- From `Open`, after any run of `put`s as their callers make them and `split`s, short enough that
neither the count nor `nBlocks` wraps, `Count` returns the number of distinct keys put. -/
theorem count_after_puts (E : Env) (hs : 0 < E.headerSize) (bs : 0 < E.blockSize) (ops : List IndexOp)
    (keyedOps : ∀ op ∈ ops, keyed E op = true) (short : ops.length < 2 ^ 32 - 1) :
    ((HashDB.fresh E).run E ops).1.count.toNat = (putKeys ops).toFinset.card := by
  obtain ⟨-, -, -, count⟩ := Tidy.run hs bs ops fresh_inv fresh_tidy keyedOps (by simpa [HashDB.fresh] using short)
    (by simp [HashDB.fresh]; omega)
  rw [count, Finset.filter_true_of_mem fun k _ => view_fresh k]
  exact Nat.zero_add _

/-- Two `put`s of one key around a `split` and a `put` of another, from a fresh index. -/
theorem count_after_puts_fresh :
    0 < pageEnv.headerSize ∧ 0 < pageEnv.blockSize ∧
      (∀ op ∈ [IndexOp.put 0 [7] [8] 0, .split .reliable, .put 0 [9] [1] 0, .put 0 [7] [2] 0], keyed pageEnv op = true) ∧
      [IndexOp.put 0 [7] [8] 0, .split .reliable, .put 0 [9] [1] 0, .put 0 [7] [2] 0].length < 2 ^ 32 - 1 ∧
      ((HashDB.fresh pageEnv).run pageEnv [.put 0 [7] [8] 0, .split .reliable, .put 0 [9] [1] 0, .put 0 [7] [2] 0]).1.count.toNat =
        (putKeys [.put 0 [7] [8] 0, .split .reliable, .put 0 [9] [1] 0, .put 0 [7] [2] 0]).toFinset.card :=
  ⟨by decide, by decide, by decide, by decide,
    count_after_puts pageEnv (by decide) (by decide) _ (by decide) (by decide)⟩

end UnitDB.Guarantees.LinearHashKeys
