import Mathlib.Data.List.Perm.Basic
import UnitDB.Source.Basic

/-!
# The topic trie

`message/trie.go`: a tree of `part`s, one per topic segment. `Add` walks the parts of a
topic from the root, creating the children it misses, appends the message seq to the seq set
of the part it ends at and records the topic's depth there; `Remove` walks the same way,
removes one occurrence of the seq and prunes the parts left with no seq and no child
(`orphan`); `Lookup` collects the seq sets of the parts a query reaches, each key consuming
`wildchars + 1` parts of the query, under a test on the part's depth.

Modelling choices:

* a `part` is a value: its `parent` is the part whose `children` map holds it and its `k` is
  the key it is held under. `orphan` deletes a part from its parent's map and goes on with the
  parent while that is left with no seq and no child; here that walk up the parents is the
  way back of `remove`'s descent, which drops each child left with no seq and no child;
* `children map[key]*part` is an association list with the operations of a Go map
  (`mapGet`, `mapSet`, `mapDelete`). Go ranges over a map in no fixed order, so what `Lookup`
  returns is only ever compared with other lists up to order;
* the `contract` argument of `Add`, `Remove` and `Lookup` only picks the mutex that
  `GetMutex` returns; a sequential run takes no locks, so it is left out;
* `TopicMaxDepth` is not in `src/`: it is an argument;
* `uint8` arithmetic is `UInt8`'s: `uint8(len(parts)-1)` is `parts.length.toUInt8 - 1` (so
  255 for an empty query) and `k.wildchars+1` is 0 for 255 wildchars.
-/

namespace UnitDB.Source.TopicTrie

/-- `key`: what a part's children are stored under. -/
structure Key where
  query : UInt32
  wildchars : UInt8
  deriving DecidableEq, Repr

end UnitDB.Source.TopicTrie

namespace UnitDB.Source

/-- The key a topic part is stored under. -/
def Part.key (p : Part) : TopicTrie.Key := ⟨p.query, p.wildchars⟩

end UnitDB.Source

namespace UnitDB.Source.TopicTrie


/-! ## Seq sets -/

/-- `ssid.remove`: the first occurrence of `value` is overwritten by the last seq and the
slice is shortened by one. -/
def Ssid.remove (ss : List UInt64) (value : UInt64) : List UInt64 × Bool :=
  if value ∈ ss then ((ss.set (ss.indexOf value) (ss.getLastD 0)).dropLast, true) else (ss, false)

/-- Overwriting the first occurrence of `v` by `z` is erasing `v` and adding `z`. -/
theorem set_indexOf_perm (z v : UInt64) :
    ∀ l : List UInt64, v ∈ l → (l.set (l.indexOf v) z).Perm (z :: l.erase v)
  | [], h => absurd h (List.not_mem_nil _)
  | x :: l, h => by
    by_cases same : x = v
    · subst same
      simp
    · have hl : v ∈ l := (List.mem_cons.mp h).resolve_left (Ne.symm same)
      rw [List.indexOf_cons_ne _ same, List.set_cons_succ, List.erase_cons_tail (by simpa using same)]
      exact ((set_indexOf_perm z v l hl).cons x).trans (List.Perm.swap z x _)

/-- `ssid.remove` removes one occurrence, in whatever order it leaves the rest. -/
theorem Ssid.remove_perm (ss : List UInt64) (value : UInt64) :
    (Ssid.remove ss value).1.Perm (ss.erase value) ∧ ((Ssid.remove ss value).2 = true ↔ value ∈ ss) := by
  unfold Ssid.remove
  split
  · rename_i mem
    refine ⟨?_, by simpa using mem⟩
    obtain ⟨l, z, rfl⟩ := (List.eq_nil_or_concat ss).resolve_left (List.ne_nil_of_mem mem)
    rw [List.concat_eq_append] at mem ⊢
    dsimp only
    by_cases last : value ∈ l
    · rw [List.indexOf_append_of_mem last, List.set_append_left _ _ (List.indexOf_lt_length.mpr last),
        List.getLastD_eq_getLast?, List.getLast?_concat, Option.getD_some,
        List.dropLast_concat, List.erase_append_left _ last]
      exact (set_indexOf_perm z value l last).trans (List.perm_append_singleton _ _).symm
    · have hz : z = value := by simpa [last, eq_comm] using mem
      subst hz
      rw [List.erase_append_right _ last]
      simp [List.indexOf_append_of_not_mem last, List.set_append_right, List.dropLast_concat]
  · rename_i absent
    simp [List.erase_of_not_mem absent, absent]

/-! ## Parts -/

/-- `part`: the depth of the last topic added at it, its seq set `ss`, and its children. -/
structure PartNode where
  depth : UInt8
  ss : List UInt64
  children : List (Key × PartNode)

/-- The part `Add` creates for a key it misses. -/
def PartNode.empty : PartNode := ⟨0, [], []⟩

/-- The descent of `Add` along `parts`: a missing child is created empty; at the end `seq` is
appended to the seq set and `depth` recorded. -/
def PartNode.add (depth : UInt8) (seq : UInt64) : List Part → PartNode → PartNode
  | [], ⟨_, ss, cs⟩ => ⟨depth, ss ++ [seq], cs⟩
  | p :: parts, ⟨d, ss, cs⟩ =>
    let child := (mapGet cs p.key).getD .empty
    ⟨d, ss, mapSet cs p.key (child.add depth seq parts)⟩

/-- `orphan`'s test: a part with no seq and no child is deleted from its parent. -/
def PartNode.Bare (n : PartNode) : Bool := n.ss.isEmpty && n.children.isEmpty

/-- The descent of `Remove` along `parts`: `none` when a part on the way has no child for the
next key; otherwise the part after `ss.remove(seq)` at the end, with each child on the way left
bare deleted from its parent (`orphan`), and whether `seq` was removed. -/
def PartNode.remove (seq : UInt64) : List Part → PartNode → Option (PartNode × Bool)
  | [], ⟨d, ss, cs⟩ => some (⟨d, (Ssid.remove ss seq).1, cs⟩, (Ssid.remove ss seq).2)
  | p :: parts, ⟨d, ss, cs⟩ =>
    match mapGet cs p.key with
    | none => none
    | some child =>
      match child.remove seq parts with
      | none => none
      | some (c, removed) =>
        some (⟨d, ss, if c.Bare then mapDelete cs p.key else mapSet cs p.key c⟩, removed)

section Lookup
variable (topicMaxDepth : UInt8)

/-- The test of `ilookup` on a part of depth `d`, for a query of depth `depth`. -/
def MatchesDepth (d depth : UInt8) : Prop :=
  d = depth ∨ (topicMaxDepth ≤ d ∧ depth > d - topicMaxDepth)

instance (d depth : UInt8) : Decidable (MatchesDepth topicMaxDepth d depth) :=
  inferInstanceAs (Decidable (_ ∨ _))

mutual
/-- `ilookup`: the seq set of the part if its depth passes the test (the test does not read
the seq, so the loop appends all of `part.ss` or none of it), then, while parts remain, what
the children whose key matches the first part give. -/
def PartNode.ilookup (parts : List Part) (depth : UInt8) : PartNode → List UInt64
  | ⟨d, ss, cs⟩ =>
    (if MatchesDepth topicMaxDepth d depth then ss else []) ++
      match parts with
      | [] => []
      | first :: _ => ilookupChildren parts depth first cs

/-- The loop of `ilookup` over `part.children`: a child whose key has the first part's query
and at most `uint8(len(parts))` parts to consume is searched with those parts consumed. -/
def ilookupChildren (parts : List Part) (depth : UInt8) (first : Part) :
    List (Key × PartNode) → List UInt64
  | [] => []
  | (k, child) :: rest =>
    (if k.query = first.query ∧ k.wildchars + 1 ≤ parts.length.toUInt8 then
      child.ilookup (parts.drop (k.wildchars + 1).toNat) depth else []) ++
      ilookupChildren parts depth first rest
end

end Lookup

/-! ## The trie -/

/-- `Trie`: the root part and `count`, which `Count()` returns. -/
structure Trie where
  root : PartNode
  count : Int

/-- `NewTrie`. -/
def newTrie : Trie := ⟨.empty, 0⟩

/-- `Trie.Add`: always reports the seq added. -/
def Trie.add (t : Trie) (parts : List Part) (depth : UInt8) (seq : UInt64) : Trie × Bool :=
  (⟨t.root.add depth seq parts, t.count + 1⟩, true)

/-- `Trie.Remove`. -/
def Trie.remove (t : Trie) (parts : List Part) (seq : UInt64) : Trie × Bool :=
  match t.root.remove seq parts with
  | none => (t, false)
  | some (root, removed) => (⟨root, if removed then t.count - 1 else t.count⟩, removed)

/-- `Trie.Lookup`. -/
def Trie.lookup (topicMaxDepth : UInt8) (t : Trie) (parts : List Part) : List UInt64 :=
  t.root.ilookup topicMaxDepth parts (parts.length.toUInt8 - 1)

end UnitDB.Source.TopicTrie
