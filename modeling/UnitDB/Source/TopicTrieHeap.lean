import UnitDB.Source.TopicTrie

/-!
# The topic trie as a heap of parts

`message/trie.go` with its pointers. `TopicTrie` reads a `part` as the value of the subtree below
it; here a part is a cell of the heap, with its `parent` pointer and the key `k` it was created
under, and a children map of pointers. `Add` walks from the root allocating the parts it misses,
each with `parent` set to the part it hangs from; `Remove` walks without allocating, removes the
seq, and, if the part it ends at is left with no seq and no child, calls `orphan`, which deletes
the part from `parent.children` under `k` and goes on up the parent pointers while the parent is
left bare. `Lookup` is `ilookup` from the root, down the children pointers.

Modelling choices:

* the heap is the list of the parts allocated so far, a pointer is an index into it, and `nil`
  is `none`; Go frees nothing that is still pointed at, and the model frees nothing: a part
  deleted from its parent's map stays in the heap, unreachable;
* a read through a pointer is `deref`; a read past the end of the heap would give the zero
  part, and no pointer reachable from the root points there;
* `orphan` recurses up the parent pointers with no bound; here it takes the number of parts in
  the heap as fuel and returns `none` if that runs out. `ilookup` recurses down the children
  pointers with no bound; `Lookup` gives it the number of parts in the heap as fuel;
* `NewPartTrie`'s root is the zero part: its empty `ssid{}` and empty map read as the zero
  part's nil slice and nil map do;
* the locks and the `contract` argument are left out, as in `TopicTrie`.
-/

namespace UnitDB.Source.TopicTrie

/-- `part`, as a cell of the heap. -/
structure PartCell where
  k : Key
  depth : UInt8
  ss : List UInt64
  parent : Option Nat
  children : List (Key × Nat)
  deriving DecidableEq, Repr

/-- The zero `part`. -/
def PartCell.zero : PartCell := ⟨⟨0, 0⟩, 0, [], none, []⟩

/-- `len(p.ss) == 0 && len(p.children) == 0`. -/
def PartCell.Bare (c : PartCell) : Bool := c.ss.isEmpty && c.children.isEmpty

/-- The parts allocated so far; a pointer is an index. -/
abbrev Heap := List PartCell

/-- The part a pointer points at. -/
def deref (heap : Heap) (a : Nat) : PartCell := heap.getD a .zero

theorem deref_set (heap : Heap) {q : Nat} (c : PartCell) (a : Nat) (hq : q < heap.length) :
    deref (heap.set q c) a = if a = q then c else deref heap a := by
  unfold deref
  split
  · subst a
    simp [hq]
  · rename_i ne
    simp only [List.getD_eq_getElem?_getD, List.getElem?_set_ne (Ne.symm ne)]

theorem deref_append (heap : Heap) (c : PartCell) (a : Nat) :
    deref (heap ++ [c]) a = if a = heap.length then c else deref heap a := by
  unfold deref
  split
  · subst a
    simp
  · rename_i ne
    rcases Nat.lt_or_gt_of_ne ne with lt | gt
    · simp only [List.getD_eq_getElem?_getD, List.getElem?_append_left lt]
    · rw [List.getD_eq_getElem?_getD, List.getD_eq_getElem?_getD, List.getElem?_eq_none (by simp; omega),
        List.getElem?_eq_none (Nat.le_of_lt gt)]

/-- `NewPartTrie`: the root part, at address 0. -/
def newPartTrie : Heap := [.zero]

/-- The loop of `Add` over `parts` from the part at `curr`: a missing child is allocated at the
end of the heap, with `parent` set to `curr`, and stored in `curr.children`; returns the heap and
the part the loop ends at. -/
def addWalk (heap : Heap) (curr : Nat) : List Part → Heap × Nat
  | [] => (heap, curr)
  | p :: parts =>
    match mapGet (deref heap curr).children p.key with
    | some child => addWalk heap child parts
    | none =>
      addWalk ((heap.set curr { deref heap curr with children := mapSet (deref heap curr).children p.key heap.length }) ++
        [⟨p.key, 0, [], some curr, []⟩]) heap.length parts

/-- The loop of `Remove` over `parts`: the part it ends at, or `none` at a missing child. -/
def findPart (heap : Heap) (curr : Nat) : List Part → Option Nat
  | [] => some curr
  | p :: parts =>
    match mapGet (deref heap curr).children p.key with
    | none => none
    | some child => findPart heap child parts

/-- `orphan`: delete the part from its parent's map under its key, and go on with the parent if
that is left bare; the root, with no parent, stays. -/
def orphan (heap : Heap) (p : Nat) : Nat → Option Heap
  | 0 => none
  | fuel + 1 =>
    match (deref heap p).parent with
    | none => some heap
    | some q =>
      let heap := heap.set q { deref heap q with children := mapDelete (deref heap q).children (deref heap p).k }
      if (deref heap q).Bare then orphan heap q fuel else some heap

/-- `Trie`, over the heap: the parts, the root at address 0, and `count`. -/
structure HeapTrie where
  heap : Heap
  count : Int
  deriving DecidableEq, Repr

/-- `NewTrie`. -/
def newHeapTrie : HeapTrie := ⟨newPartTrie, 0⟩

/-- `Trie.Add`: the loop, then `curr.ss = append(curr.ss, seq)` and `curr.depth = depth`. -/
def HeapTrie.add (t : HeapTrie) (parts : List Part) (depth : UInt8) (seq : UInt64) : HeapTrie × Bool :=
  let walk := addWalk t.heap 0 parts
  (⟨walk.1.set walk.2 { deref walk.1 walk.2 with ss := (deref walk.1 walk.2).ss ++ [seq], depth }, t.count + 1⟩, true)

/-- `Trie.Remove`: the loop, `curr.ss.remove(seq)`, and `curr.orphan()` if `curr` is left bare;
`none` if `orphan` runs out of fuel. -/
def HeapTrie.remove (t : HeapTrie) (parts : List Part) (seq : UInt64) : Option (HeapTrie × Bool) :=
  match findPart t.heap 0 parts with
  | none => some (t, false)
  | some curr =>
    let removed := Ssid.remove (deref t.heap curr).ss seq
    let heap := t.heap.set curr { deref t.heap curr with ss := removed.1 }
    let count := if removed.2 then t.count - 1 else t.count
    if (deref heap curr).Bare then (orphan heap curr heap.length).map fun heap => (⟨heap, count⟩, removed.2)
    else some (⟨heap, count⟩, removed.2)

/-- `ilookup` at the part `a`: its seq set if its depth passes the test, then, while parts
remain, what the children whose key has the first part's query and at most `uint8(len(parts))`
parts to consume give, searched with those parts consumed. Each call goes one part down, and
`fuel` bounds the calls. -/
def ilookupAt (topicMaxDepth : UInt8) (heap : Heap) (depth : UInt8) : Nat → List Part → Nat → List UInt64
  | 0, _, _ => []
  | fuel + 1, parts, a =>
    (if MatchesDepth topicMaxDepth (deref heap a).depth depth then (deref heap a).ss else []) ++
      match parts with
      | [] => []
      | first :: _ => (deref heap a).children.flatMap fun e =>
        if e.1.query = first.query ∧ e.1.wildchars + 1 ≤ parts.length.toUInt8 then
          ilookupAt topicMaxDepth heap depth fuel (parts.drop (e.1.wildchars + 1).toNat) e.2 else []

/-- `Trie.Lookup`, with the number of parts in the heap as fuel. -/
def HeapTrie.lookup (topicMaxDepth : UInt8) (t : HeapTrie) (parts : List Part) : List UInt64 :=
  ilookupAt topicMaxDepth t.heap (parts.length.toUInt8 - 1) t.heap.length parts 0

/-- The parts reachable from the root through the children maps. -/
inductive Reach (heap : Heap) : Nat → Prop
  | root : Reach heap 0
  | child {p : Nat} {k : Key} {c : Nat} : Reach heap p → (k, c) ∈ (deref heap p).children → Reach heap c

end UnitDB.Source.TopicTrie
