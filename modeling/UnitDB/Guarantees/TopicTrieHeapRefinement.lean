import UnitDB.Guarantees.TopicTrieLinks

/-!
# The heap of parts is the trie of values

`TopicTrie` reads `message/trie.go` with a part as the value of the subtree below it, and
`orphan`'s walk up the parent pointers as the way back of `Remove`'s descent; `TopicTrieHeap`
reads the same code with its pointers. Over every run of `Add` and `Remove` from `NewTrie` the
two return the same, call for call, and keep the same count, and the root part of the heap
stands for the root value (`heap_trie_refines_trie`): each part's depth and seq set are its
value's, and its map holds, key for key and in the same order, parts that stand for its value's
children. So `Lookup` on the heap returns what it returns on the values
(`heap_lookup_is_trie_lookup`): its walk down the children pointers ends within as many calls
as the heap has parts, since a part's children are allocated after it.

The proof follows one call down its walk. A call writes the parts below the part its walk is
at and parts past the end of the heap, and nothing else. Under `Links` the parts below two
children of one part are apart, and a part is not below its own children: a part below `c` has
`c` among its ancestors through the parent pointers, and a part's parent is older than it.
`orphan` is read as the relation `Settles`: a bare part leaves its parent's map, and the parent
settles in turn.
-/

set_option autoImplicit false

namespace UnitDB.Guarantees.TopicTrieHeapRefinement
open UnitDB.Source UnitDB.Source.TopicTrie
open UnitDB.Guarantees.TopicTrieRefinement (TrieOp Trie.step runOps)
open UnitDB.Guarantees.TopicTrieLinks

/-! ## Standing for a value -/

mutual
/-- The part at `a` stands for the value `n`. -/
def Rep (heap : Heap) (a : Nat) : PartNode → Prop
  | ⟨d, ss, cs⟩ => (deref heap a).depth = d ∧ (deref heap a).ss = ss ∧ RepChildren heap (deref heap a).children cs

/-- A children map stands for a list of children: key for key, in order. -/
def RepChildren (heap : Heap) : List (Key × Nat) → List (Key × PartNode) → Prop
  | [], [] => True
  | (k, a) :: l, (k', n) :: cs => k = k' ∧ Rep heap a n ∧ RepChildren heap l cs
  | _, _ => False
end

section Transport
variable {heap heap' : Heap} {kept : Nat → Prop}

mutual
/-- What a part stands for is carried to a heap that agrees on a set of parts closed under the
children maps. -/
theorem Rep.transport (agree : ∀ z, kept z → deref heap' z = deref heap z)
    (closed : ∀ p k c, kept p → (k, c) ∈ (deref heap p).children → kept c) :
    ∀ (a : Nat) (n : PartNode), kept a → Rep heap a n → Rep heap' a n
  | a, ⟨_, _, cs⟩, ka, ⟨hd, hs, hc⟩ => by
    rw [Rep, agree a ka]
    exact ⟨hd, hs, RepChildren.transport agree closed _ cs (fun e he => closed a e.1 e.2 ka he) hc⟩

theorem RepChildren.transport (agree : ∀ z, kept z → deref heap' z = deref heap z)
    (closed : ∀ p k c, kept p → (k, c) ∈ (deref heap p).children → kept c) :
    ∀ (l : List (Key × Nat)) (cs : List (Key × PartNode)), (∀ e ∈ l, kept e.2) → RepChildren heap l cs →
      RepChildren heap' l cs
  | [], [], _, h => h
  | (_, a) :: l, (_, n) :: cs, kl, ⟨hk, hn, hl⟩ =>
    ⟨hk, Rep.transport agree closed a n (kl _ (List.mem_cons_self _ _)) hn,
      RepChildren.transport agree closed l cs (fun e he => kl e (List.mem_cons_of_mem _ he)) hl⟩
  | [], _ :: _, _, h => h.elim
  | _ :: _, [], _, h => h.elim
end

end Transport

/-- A part stands for the same value in a heap that agrees on the parts below it. -/
theorem Rep.frame {heap heap' : Heap} {a : Nat} {n : PartNode} (h : Rep heap a n)
    (agree : ∀ z, Below heap a z → deref heap' z = deref heap z) : Rep heap' a n :=
  Rep.transport agree (fun _ _ _ hp held => .child hp held) a n .refl h

/-! ## Frames, under `Links` -/

section Frames
variable {heap : Heap} {live : List Nat} {x : Nat}

/-- A child of `p` stands for the same value in a heap that agrees with `heap` on `live` but at `p`. -/
theorem Rep.child_frame (L : Links heap live x) {heap' : Heap} {p b : Nat} {k : Key} {m : PartNode}
    (hp : p ∈ live) (hb : (k, b) ∈ (deref heap p).children)
    (agree : ∀ z ∈ live, z ≠ p → deref heap' z = deref heap z) (h : Rep heap b m) : Rep heap' b m :=
  h.frame fun z below => agree z (L.below (L.down p hp k b hb).1 below).1 fun same =>
    L.not_below_child hp hb (same ▸ below)

/-- A child of `p` stands for the same value in a heap that agrees with `heap` on `live` but at `p`
and below a sibling. -/
theorem Rep.sibling_frame (L : Links heap live x) {heap' : Heap} {p b c : Nat} {k k' : Key} {m : PartNode}
    (hp : p ∈ live) (hb : (k', b) ∈ (deref heap p).children) (hc : (k, c) ∈ (deref heap p).children)
    (ne : k' ≠ k) (agree : ∀ z ∈ live, z ≠ p → ¬ Below heap c z → deref heap' z = deref heap z)
    (h : Rep heap b m) : Rep heap' b m :=
  h.frame fun z below => agree z (L.below (L.down p hp k' b hb).1 below).1
    (fun same => L.not_below_child hp hb (same ▸ below)) (L.below_apart hp hb hc ne below)

end Frames

/-! ## Children maps -/

section Children
variable {heap heap' : Heap}

theorem RepChildren.get_some {k : Key} {a : Nat} :
    ∀ {l : List (Key × Nat)} {cs : List (Key × PartNode)}, RepChildren heap l cs → mapGet l k = some a →
      ∃ m, mapGet cs k = some m ∧ Rep heap a m
  | (k', b) :: l, (_, n) :: cs, ⟨rfl, hn, hl⟩, h => by
    simp only [mapGet] at h ⊢
    split at h
    · cases h
      exact ⟨n, if_pos ‹_›, hn⟩
    · rw [if_neg ‹_›]
      exact hl.get_some h

theorem RepChildren.get_none {k : Key} :
    ∀ {l : List (Key × Nat)} {cs : List (Key × PartNode)}, RepChildren heap l cs → mapGet l k = none →
      mapGet cs k = none
  | [], [], _, _ => rfl
  | (k', b) :: l, (_, n) :: cs, ⟨rfl, _, hl⟩, h => by
    simp only [mapGet] at h ⊢
    split at h
    · cases h
    · rw [if_neg ‹_›]
      exact hl.get_none h

theorem RepChildren.isEmpty : ∀ {l : List (Key × Nat)} {cs : List (Key × PartNode)}, RepChildren heap l cs →
    l.isEmpty = cs.isEmpty
  | [], [], _ => rfl
  | _ :: _, _ :: _, _ => rfl

/-- A part stands for a bare value exactly when it is bare. -/
theorem Rep.bare {a : Nat} {n : PartNode} (h : Rep heap a n) : (deref heap a).Bare = n.Bare := by
  obtain ⟨d, ss, cs⟩ := n
  obtain ⟨-, hs, hl⟩ := h
  simp only [PartCell.Bare, PartNode.Bare, hs, hl.isEmpty]

/-- A map whose entries each stand for the same values in `heap'`. -/
theorem RepChildren.of_each :
    ∀ {l : List (Key × Nat)} {cs : List (Key × PartNode)}, RepChildren heap l cs →
      (∀ e ∈ l, ∀ m, Rep heap e.2 m → Rep heap' e.2 m) → RepChildren heap' l cs
  | [], [], h, _ => h
  | _ :: _, (_, n) :: _, ⟨hk, hn, hl⟩, each =>
    ⟨hk, each _ (List.mem_cons_self _ _) n hn, hl.of_each fun e he => each e (List.mem_cons_of_mem _ he)⟩

/-- `m[k] = a` on the map and `mapSet` on the children, where `a` stands for the new child and the
other entries stand for their values in `heap'`. -/
theorem RepChildren.set {k : Key} {a : Nat} {m : PartNode} (ha : Rep heap' a m) :
    ∀ {l : List (Key × Nat)} {cs : List (Key × PartNode)}, RepChildren heap l cs → (l.map (·.1)).Nodup →
      (∀ k' b, (k', b) ∈ l → k' ≠ k → ∀ n, Rep heap b n → Rep heap' b n) →
      RepChildren heap' (mapSet l k a) (mapSet cs k m)
  | [], [], _, _, _ => ⟨rfl, ha, trivial⟩
  | (k', b) :: l, (_, n) :: cs, ⟨rfl, hn, hl⟩, nd, each => by
    rw [List.map_cons, List.nodup_cons] at nd
    simp only [mapSet]
    split
    · rename_i same
      exact ⟨rfl, ha, hl.of_each fun e he => each e.1 e.2 (List.mem_cons_of_mem _ he) fun ek =>
        nd.1 (List.mem_map.mpr ⟨e, he, ek.trans same.symm⟩)⟩
    · exact ⟨rfl, each k' b (List.mem_cons_self _ _) ‹_› n hn,
        hl.set ha nd.2 fun k'' b' h => each k'' b' (List.mem_cons_of_mem _ h)⟩

/-- `delete(m, k)` on the map and on the children, where the other entries stand for their values
in `heap'`. -/
theorem RepChildren.delete (k : Key) :
    ∀ {l : List (Key × Nat)} {cs : List (Key × PartNode)}, RepChildren heap l cs → (l.map (·.1)).Nodup →
      (∀ k' b, (k', b) ∈ l → k' ≠ k → ∀ n, Rep heap b n → Rep heap' b n) →
      RepChildren heap' (mapDelete l k) (mapDelete cs k)
  | [], [], _, _, _ => trivial
  | (k', b) :: l, (_, n) :: cs, ⟨rfl, hn, hl⟩, nd, each => by
    rw [List.map_cons, List.nodup_cons] at nd
    simp only [mapDelete]
    split
    · rename_i same
      exact hl.of_each fun e he => each e.1 e.2 (List.mem_cons_of_mem _ he) fun ek =>
        nd.1 (List.mem_map.mpr ⟨e, he, ek.trans same.symm⟩)
    · exact ⟨rfl, each k' b (List.mem_cons_self _ _) ‹_› n hn,
        hl.delete k nd.2 fun k'' b' h => each k'' b' (List.mem_cons_of_mem _ h)⟩

end Children

/-! ## `Add` -/

/-- `heap'` differs from `heap` only below `c` and past the end of `heap`. -/
def Within (heap heap' : Heap) (c : Nat) : Prop :=
  ∀ z, z < heap.length → ¬ Below heap c z → deref heap' z = deref heap z

theorem Within.up {heap heap' : Heap} {p c : Nat} {k : Key} (held : (k, c) ∈ (deref heap p).children)
    (w : Within heap heap' c) : Within heap heap' p :=
  fun z hz nb => w z hz fun below => nb ((Below.refl.child held).trans below)

/-- What `Add` leaves in the heap from the part at `curr` on: its loop, then the seq set and the
depth of the part the loop ends at. -/
def addFrom (heap : Heap) (curr : Nat) (parts : List Part) (depth : UInt8) (seq : UInt64) : Heap :=
  (addWalk heap curr parts).1.set (addWalk heap curr parts).2
    { deref (addWalk heap curr parts).1 (addWalk heap curr parts).2 with
      ss := (deref (addWalk heap curr parts).1 (addWalk heap curr parts).2).ss ++ [seq], depth }

section Add
variable {heap : Heap} {curr : Nat} {p : Part} {parts : List Part} {depth : UInt8} {seq : UInt64}

theorem addFrom_nil : addFrom heap curr [] depth seq =
    heap.set curr { deref heap curr with ss := (deref heap curr).ss ++ [seq], depth } := rfl

theorem addFrom_found {child : Nat} (h : mapGet (deref heap curr).children p.key = some child) :
    addFrom heap curr (p :: parts) depth seq = addFrom heap child parts depth seq := by
  simp only [addFrom, addWalk, h]

theorem addFrom_missing (h : mapGet (deref heap curr).children p.key = none) :
    addFrom heap curr (p :: parts) depth seq =
      addFrom (heap.set curr { deref heap curr with children := mapSet (deref heap curr).children p.key heap.length } ++
        [⟨p.key, 0, [], some curr, []⟩]) heap.length parts depth seq := by
  simp only [addFrom, addWalk, h]

end Add

/-- `Add` from the part at `curr` on makes it stand for what the value's descent returns, and
writes nothing outside the parts below it but past the end of the heap. -/
theorem addFrom_rep (depth : UInt8) (seq : UInt64) : ∀ (parts : List Part) (heap : Heap) (live : List Nat)
    (curr : Nat) (n : PartNode), Links heap live curr → curr ∈ live → Rep heap curr n →
      Rep (addFrom heap curr parts depth seq) curr (n.add depth seq parts) ∧
        Within heap (addFrom heap curr parts depth seq) curr
  | [], heap, live, curr, ⟨d, ss, cs⟩, L, hc, ⟨_, hs, hl⟩ => by
    have bound := L.allocated curr hc
    have agree : ∀ z, z ≠ curr → deref (addFrom heap curr [] depth seq) z = deref heap z := fun z ne => by
      rw [addFrom_nil, deref_set _ _ _ bound, if_neg ne]
    refine ⟨?_, fun z _ nb => agree z fun same => nb (same ▸ .refl)⟩
    rw [PartNode.add, Rep, addFrom_nil, deref_set _ _ _ bound, if_pos rfl]
    exact ⟨rfl, by rw [hs], hl.of_each fun e he m h =>
      h.child_frame L hc he fun z _ ne => by rw [← addFrom_nil, agree z ne]⟩
  | p :: parts, heap, live, curr, ⟨d, ss, cs⟩, L, hc, ⟨hd, hs, hl⟩ => by
    cases found : mapGet (deref heap curr).children p.key with
    | some child =>
      have held := mapGet_mem found
      obtain ⟨m, hm, hrep⟩ := hl.get_some found
      obtain ⟨rep', within⟩ := addFrom_rep depth seq parts heap live child m
        (L.retarget (.inr (PartCell.bare_of_mem held)) child) (L.down curr hc _ _ held).1 hrep
      rw [addFrom_found found]
      refine ⟨?_, within.up held⟩
      simp only [PartNode.add, hm, Option.getD_some]
      rw [Rep, within curr (L.allocated curr hc) (L.not_below_child hc held)]
      refine ⟨hd, hs, ?_⟩
      rw [← mapSet_of_mapGet found]
      exact hl.set rep' (L.keys curr hc) fun k' b hb ne n hn =>
        hn.sibling_frame L hc hb held ne fun z hz _ nb => within z (L.allocated z hz) nb
    | none =>
      have bound := L.allocated curr hc
      have L1 := L.alloc hc found
        { deref heap curr with children := mapSet (deref heap curr).children p.key heap.length } rfl rfl rfl
      have new : Rep (heap.set curr { deref heap curr with children := mapSet (deref heap curr).children p.key heap.length } ++
          [⟨p.key, 0, [], some curr, []⟩]) heap.length .empty := by
        rw [PartNode.empty, Rep, deref_append, List.length_set, if_pos rfl]
        exact ⟨rfl, rfl, trivial⟩
      obtain ⟨rep', within⟩ := addFrom_rep depth seq parts _ _ heap.length .empty L1
        (List.mem_append_right _ (List.mem_singleton_self _)) new
      rw [addFrom_missing found]
      have old : ∀ z, z < heap.length → deref (addFrom (heap.set curr
          { deref heap curr with children := mapSet (deref heap curr).children p.key heap.length } ++
          [⟨p.key, 0, [], some curr, []⟩]) heap.length parts depth seq) z =
            if z = curr then { deref heap curr with children := mapSet (deref heap curr).children p.key heap.length }
            else deref heap z := fun z hz => by
        rw [within z (by simp only [List.length_append, List.length_set, List.length_singleton]; omega)
          fun below => absurd (Below.leaf (by rw [deref_append, List.length_set, if_pos rfl]) below) hz.ne,
          deref_append, List.length_set, if_neg hz.ne, deref_set _ _ _ bound]
      refine ⟨?_, fun z hz nb => by rw [old z hz, if_neg fun (same : z = curr) => nb (same ▸ .refl)]⟩
      simp only [PartNode.add, RepChildren.get_none hl found, Option.getD_none]
      rw [Rep, old curr bound, if_pos rfl]
      exact ⟨hd, hs, hl.set rep' (L.keys curr hc) fun k' b hb _ n hn =>
        hn.child_frame L hc hb fun z hz ne => by rw [old z (L.allocated z hz), if_neg ne]⟩

/-! ## `Remove` -/

/-- `orphan` from a part, as a relation: a part with a seq or a child stays, as does one with no
parent; a bare part leaves its parent's map, and the parent settles in turn. -/
inductive Settles : Heap → Nat → Heap → Prop
  | kept {heap : Heap} {x : Nat} : (deref heap x).Bare = false → Settles heap x heap
  | root {heap : Heap} {x : Nat} : (deref heap x).parent = none → Settles heap x heap
  | up {heap heap' : Heap} {x q : Nat} : (deref heap x).Bare = true → (deref heap x).parent = some q →
      Settles (heap.set q { deref heap q with children := mapDelete (deref heap q).children (deref heap x).k }) q
        heap' → Settles heap x heap'

theorem orphan_settles : ∀ (fuel : Nat) (heap heap' : Heap) (x : Nat), (deref heap x).Bare = true →
    orphan heap x fuel = some heap' → Settles heap x heap'
  | 0, _, _, _, _, h => nomatch h
  | fuel + 1, heap, heap', x, bare, h => by
    unfold orphan at h
    split at h
    · cases h
      exact .root ‹_›
    · rename_i q hq
      refine .up bare hq ?_
      dsimp only at h
      split at h
      · exact orphan_settles fuel _ _ q ‹_› h
      · cases h
        exact .kept (Bool.eq_false_iff.mpr ‹_›)

/-- The root, with no parent, settles where it is. -/
theorem Settles.root_eq {heap heap' : Heap} (root : (deref heap 0).parent = none) (h : Settles heap 0 heap') :
    heap' = heap := by
  cases h with
  | kept => rfl
  | root => rfl
  | up _ up _ =>
    rw [root] at up
    cases up

/-- `heap'` is `heap` with writes to the seq sets and the maps of the parts below `c`. -/
structure Edits (heap heap' : Heap) (c : Nat) : Prop where
  length : heap'.length = heap.length
  within : Within heap heap' c
  keeps : ∀ z, (deref heap' z).parent = (deref heap z).parent ∧ (deref heap' z).k = (deref heap z).k

/-- Writing a part that keeps its parent pointer and key keeps every part's. -/
theorem keeps_set {heap : Heap} {q : Nat} (c : PartCell) (bound : q < heap.length)
    (hp : c.parent = (deref heap q).parent) (hk : c.k = (deref heap q).k) (z : Nat) :
    (deref (heap.set q c) z).parent = (deref heap z).parent ∧ (deref (heap.set q c) z).k = (deref heap z).k := by
  rw [deref_set _ _ _ bound]
  split
  · subst z
    exact ⟨hp, hk⟩
  · exact ⟨rfl, rfl⟩

theorem findPart_cons {heap : Heap} {curr e : Nat} {p : Part} {parts : List Part}
    (h : findPart heap curr (p :: parts) = some e) :
    ∃ child, mapGet (deref heap curr).children p.key = some child ∧ findPart heap child parts = some e := by
  unfold findPart at h
  split at h
  · cases h
  · exact ⟨_, ‹_›, h⟩

theorem remove_cons {seq : UInt64} {p : Part} {parts : List Part} {d : UInt8} {ss : List UInt64}
    {cs : List (Key × PartNode)} {m r : PartNode} {removed : Bool} (hm : mapGet cs p.key = some m)
    (h : PartNode.remove seq (p :: parts) ⟨d, ss, cs⟩ = some (r, removed)) :
    ∃ rc, m.remove seq parts = some (rc, removed) ∧
      r = ⟨d, ss, if rc.Bare then mapDelete cs p.key else mapSet cs p.key rc⟩ := by
  simp only [PartNode.remove, hm] at h
  cases hrc : m.remove seq parts with
  | none =>
    rw [hrc] at h
    cases h
  | some res =>
    obtain ⟨rc, removed'⟩ := res
    simp only [hrc, Option.some.injEq, Prod.mk.injEq] at h
    obtain ⟨rfl, rfl⟩ := h
    exact ⟨rc, rfl, rfl⟩

/-- `Remove`'s loop finds a part exactly when the value's descent finds a value. -/
theorem findPart_isSome {heap : Heap} (seq : UInt64) : ∀ (parts : List Part) (curr : Nat) (n : PartNode),
    Rep heap curr n → (findPart heap curr parts).isSome = (n.remove seq parts).isSome
  | [], _, ⟨_, _, _⟩, _ => rfl
  | p :: parts, curr, ⟨d, ss, cs⟩, ⟨_, _, hl⟩ => by
    cases found : mapGet (deref heap curr).children p.key with
    | none => simp only [findPart, found, PartNode.remove, hl.get_none found, Option.isSome_none]
    | some child =>
      obtain ⟨m, hm, hrep⟩ := hl.get_some found
      simp only [findPart, found, PartNode.remove, hm, findPart_isSome seq parts child m hrep]
      rcases m.remove seq parts with _ | ⟨_, _⟩ <;> rfl

theorem remove_none {t : HeapTrie} {parts : List Part} {seq : UInt64} (found : findPart t.heap 0 parts = none) :
    t.remove parts seq = some (t, false) := by
  simp only [HeapTrie.remove, found]

/-- `Remove` at the part `e` its loop finds: `orphan`'s climb from `e`, the count and the result. -/
theorem remove_found {t : HeapTrie} {parts : List Part} {seq : UInt64} {e : Nat} {r : HeapTrie × Bool}
    (found : findPart t.heap 0 parts = some e) (hr : t.remove parts seq = some r) :
    Settles (t.heap.set e { deref t.heap e with ss := (Ssid.remove (deref t.heap e).ss seq).1 }) e r.1.heap ∧
      r.1.count = (if (Ssid.remove (deref t.heap e).ss seq).2 then t.count - 1 else t.count) ∧
      r.2 = (Ssid.remove (deref t.heap e).ss seq).2 := by
  simp only [HeapTrie.remove, found] at hr
  split at hr
  · obtain ⟨H, orphaned, rfl⟩ := Option.map_eq_some'.mp hr
    exact ⟨orphan_settles _ _ _ _ ‹_› orphaned, rfl, rfl⟩
  · cases hr
    exact ⟨.kept (Bool.eq_false_iff.mpr ‹_›), rfl, rfl⟩

section Remove
variable {heap : Heap} {live : List Nat} {x : Nat} (L : Links heap live x) (seq : UInt64)
include L

/-- `Remove` from the part at `curr` on: where `orphan`'s climb from the part the loop ends at
reaches `curr`, `curr` stands for what the value's descent returns, and only the parts below
`curr` have been written. -/
theorem remove_rep : ∀ (parts : List Part) (curr e : Nat) (n r : PartNode) (removed : Bool) (H : Heap),
    curr ∈ live → Rep heap curr n → findPart heap curr parts = some e → n.remove seq parts = some (r, removed) →
    Settles (heap.set e { deref heap e with ss := (Ssid.remove (deref heap e).ss seq).1 }) e H →
      removed = (Ssid.remove (deref heap e).ss seq).2 ∧ ∃ Hc, Rep Hc curr r ∧ Edits heap Hc curr ∧ Settles Hc curr H
  | [], curr, e, ⟨d, ss, cs⟩, r, removed, H, hc, ⟨hd, hs, hl⟩, found, hr, settles => by
    obtain rfl : curr = e := Option.some.inj found
    simp only [PartNode.remove, Option.some.injEq, Prod.mk.injEq] at hr
    obtain ⟨rfl, rfl⟩ := hr
    have bound := L.allocated curr hc
    have agree : ∀ z, z ≠ curr → deref (heap.set curr { deref heap curr with
        ss := (Ssid.remove (deref heap curr).ss seq).1 }) z = deref heap z := fun z ne => by
      rw [deref_set _ _ _ bound, if_neg ne]
    refine ⟨by rw [hs], _, ?_, ⟨List.length_set .., fun z _ nb => agree z fun same => nb (same ▸ .refl),
      keeps_set _ bound rfl rfl⟩, settles⟩
    rw [Rep, deref_set _ _ _ bound, if_pos rfl]
    exact ⟨hd, by rw [hs], hl.of_each fun e he m h => h.child_frame L hc he fun z _ ne => agree z ne⟩
  | p :: parts, curr, e, ⟨d, ss, cs⟩, r, removed, H, hc, ⟨hd, hs, hl⟩, found, hr, settles => by
    obtain ⟨child, hchild, found'⟩ := findPart_cons found
    have held := mapGet_mem hchild
    obtain ⟨hc', up, key⟩ := L.down curr hc _ _ held
    obtain ⟨m, hm, hrep⟩ := hl.get_some hchild
    obtain ⟨rc, hrc, rfl⟩ := remove_cons hm hr
    obtain ⟨same, Hch, rep', edits, settles'⟩ := remove_rep parts child e m rc removed H hc' hrep found' hrc settles
    refine ⟨same, ?_⟩
    have bound := L.allocated curr hc
    have parentKept : deref Hch curr = deref heap curr := edits.within curr bound (L.not_below_child hc held)
    cases settles' with
    | kept notBare =>
      rw [rep'.bare] at notBare
      refine ⟨_, ?_, ⟨edits.length, edits.within.up held, edits.keeps⟩, .kept ?_⟩
      · simp only [notBare, Bool.false_eq_true, if_false]
        rw [Rep, parentKept, ← mapSet_of_mapGet hchild]
        exact ⟨hd, hs, hl.set rep' (L.keys curr hc) fun k' b hb ne n hn =>
          hn.sibling_frame L hc hb held ne fun z hz _ nb => edits.within z (L.allocated z hz) nb⟩
      · rw [parentKept]
        exact PartCell.bare_of_mem held
    | root none =>
      rw [(edits.keeps child).1, up] at none
      cases none
    | up bare up' settles'' =>
      rw [(edits.keeps child).1, up, Option.some.injEq] at up'
      subst up'
      rw [rep'.bare] at bare
      rw [(edits.keeps child).2, key, parentKept] at settles''
      have bound' : curr < Hch.length := edits.length ▸ bound
      have agree : ∀ z, z ≠ curr → ¬ Below heap child z → z < heap.length →
          deref (Hch.set curr { deref heap curr with children := mapDelete (deref heap curr).children p.key }) z =
            deref heap z := fun z ne nb hz => by
        rw [deref_set _ _ _ bound', if_neg ne, edits.within z hz nb]
      refine ⟨_, ?_, ⟨by rw [List.length_set, edits.length], fun z hz nb => ?_, fun z => ?_⟩, settles''⟩
      · simp only [bare, if_true]
        rw [Rep, deref_set _ _ _ bound', if_pos rfl]
        exact ⟨hd, hs, hl.delete p.key (L.keys curr hc) fun k' b hb ne n hn =>
          hn.sibling_frame L hc hb held ne fun z hz ne' nb => agree z ne' nb (L.allocated z hz)⟩
      · exact agree z (fun same => nb (same ▸ .refl)) (fun below => nb ((Below.refl.child held).trans below)) hz
      · obtain ⟨hp, hk⟩ := keeps_set { deref heap curr with children := mapDelete (deref heap curr).children p.key }
          bound' (by rw [parentKept]) (by rw [parentKept]) z
        exact ⟨hp.trans (edits.keeps z).1, hk.trans (edits.keeps z).2⟩

end Remove

/-! ## Runs -/

/-- The heap trie `t` is the trie of values `v`. -/
structure Mirrors (t : HeapTrie) (v : Trie) : Prop where
  links : TrieLinks t
  count : t.count = v.count
  root : Rep t.heap 0 v.root

theorem Mirrors.empty : Mirrors newHeapTrie newTrie :=
  ⟨⟨[0], newPartTrie_links⟩, rfl, ⟨rfl, rfl, trivial⟩⟩

theorem Mirrors.add {t : HeapTrie} {v : Trie} (h : Mirrors t v) (parts : List Part) (depth : UInt8) (seq : UInt64) :
    Mirrors (t.add parts depth seq).1 (v.add parts depth seq).1 := by
  obtain ⟨live, L⟩ := h.links
  exact ⟨add_links h.links parts depth seq, congrArg (· + 1) h.count,
    (addFrom_rep depth seq parts t.heap live 0 v.root (L.retarget (.inl rfl) 0) L.root h.root).1⟩

theorem Mirrors.remove {t : HeapTrie} {v : Trie} (h : Mirrors t v) (parts : List Part) (seq : UInt64) :
    ∃ r, t.remove parts seq = some r ∧ r.2 = (v.remove parts seq).2 ∧ Mirrors r.1 (v.remove parts seq).1 := by
  obtain ⟨r, hr, links⟩ := remove_links h.links parts seq
  obtain ⟨live, L⟩ := h.links
  have same := findPart_isSome seq parts 0 v.root h.root
  cases found : findPart t.heap 0 parts with
  | none =>
    cases hv : v.root.remove seq parts with
    | some _ => rw [found, hv] at same; cases same
    | none =>
      refine ⟨_, remove_none found, ?_⟩
      simp only [Trie.remove, hv]
      exact ⟨trivial, h⟩
  | some e =>
    cases hv : v.root.remove seq parts with
    | none => rw [found, hv] at same; cases same
    | some res =>
      obtain ⟨settles, count, result⟩ := remove_found found hr
      obtain ⟨same', Hc, rep, edits, settles'⟩ := remove_rep L seq parts 0 e v.root res.1 res.2 _ L.root h.root
        found hv settles
      have root_eq := settles'.root_eq ((edits.keeps 0).1.trans L.rootParent)
      refine ⟨r, hr, ?_⟩
      simp only [Trie.remove, hv]
      exact ⟨result.trans same'.symm, links, by rw [count, ← same', h.count], root_eq ▸ rep⟩

theorem Mirrors.step {t : HeapTrie} {v : Trie} (h : Mirrors t v) :
    ∀ op, ∃ r, heapStep t op = some r ∧ r.2 = (Trie.step v op).2 ∧ Mirrors r.1 (Trie.step v op).1
  | .add parts depth seq => ⟨_, rfl, rfl, h.add parts depth seq⟩
  | .remove parts seq => h.remove parts seq

theorem Mirrors.run {t : HeapTrie} {v : Trie} (h : Mirrors t v) : ∀ ops,
    ∃ t', runHeap t ops = some (t', (runOps Trie.step v ops).2) ∧ Mirrors t' (runOps Trie.step v ops).1
  | [] => ⟨t, rfl, h⟩
  | op :: ops => by
    obtain ⟨r, hr, same, h'⟩ := h.step op
    obtain ⟨t', run, h''⟩ := h'.run ops
    exact ⟨t', by simp only [runHeap, hr, Option.some_bind, run, Option.map_some', runOps, same], h''⟩

/-! ## `Lookup` -/

section Lookup
variable (topicMaxDepth depth : UInt8) {heap : Heap} {live : List Nat} {x : Nat}

mutual
/-- `ilookup` at a part that stands for `n` is `ilookup` at `n`, given a call for each part
between it and the end of the heap: a part's children are allocated after it. -/
theorem ilookupAt_eq (L : Links heap live x) : ∀ (n : PartNode) (fuel : Nat) (q : List Part) (a : Nat), a ∈ live →
    heap.length - a ≤ fuel → Rep heap a n →
      ilookupAt topicMaxDepth heap depth fuel q a = n.ilookup topicMaxDepth q depth
  | ⟨d, ss, cs⟩, fuel, q, a, ha, hf, ⟨hd, hs, hl⟩ => by
    obtain ⟨f, rfl⟩ : ∃ f, fuel = f + 1 := Nat.exists_eq_add_one_of_ne_zero (by have := L.allocated a ha; omega)
    cases q with
    | nil => rw [ilookupAt, PartNode.ilookup, hd, hs]
    | cons first rest =>
      rw [ilookupAt, PartNode.ilookup, hd, hs]
      congr 1
      refine ilookupChildrenAt_eq L cs _ f _ first (fun e he => ?_) hl
      obtain ⟨hc, up, -⟩ := L.down a ha e.1 e.2 he
      have := L.older e.2 hc a up
      exact ⟨hc, by omega⟩

theorem ilookupChildrenAt_eq (L : Links heap live x) : ∀ (cs : List (Key × PartNode)) (l : List (Key × Nat)) (f : Nat) (q : List Part)
    (first : Part), (∀ e ∈ l, e.2 ∈ live ∧ heap.length - e.2 ≤ f) → RepChildren heap l cs →
      l.flatMap (fun e => if e.1.query = first.query ∧ e.1.wildchars + 1 ≤ q.length.toUInt8 then
          ilookupAt topicMaxDepth heap depth f (q.drop (e.1.wildchars + 1).toNat) e.2 else []) =
        ilookupChildren topicMaxDepth q depth first cs
  | [], [], _, _, _, _, _ => rfl
  | (_, n) :: cs, (_, c) :: l, f, q, first, each, ⟨rfl, hn, hl⟩ => by
    rw [List.flatMap_cons, ilookupChildren,
      ilookupChildrenAt_eq L cs l f q first (fun e he => each e (List.mem_cons_of_mem _ he)) hl]
    have child := each _ (List.mem_cons_self _ _)
    split <;> simp only [ilookupAt_eq L n f _ c child.1 child.2 hn]
  | [], _ :: _, _, _, _, _, h => h.elim
  | _ :: _, [], _, _, _, _, h => h.elim
end

end Lookup

/-- Over every run of `Add` and `Remove` from `NewTrie`, the heap of parts returns what the trie
of values returns, call for call, keeps its count, and its root part stands for its root. -/
theorem heap_trie_refines_trie (ops : List TrieOp) :
    ∃ t, runHeap newHeapTrie ops = some (t, (runOps Trie.step newTrie ops).2) ∧
      t.count = (runOps Trie.step newTrie ops).1.count ∧ Rep t.heap 0 (runOps Trie.step newTrie ops).1.root := by
  obtain ⟨t, run, h⟩ := Mirrors.empty.run ops
  exact ⟨t, run, h.count, h.root⟩

/-- After every run of `Add` and `Remove` from `NewTrie`, `Lookup` on the heap of parts returns
what it returns on the trie of values, in the same order. -/
theorem heap_lookup_is_trie_lookup (topicMaxDepth : UInt8) (ops : List TrieOp) (q : List Part) :
    ∃ t, runHeap newHeapTrie ops = some (t, (runOps Trie.step newTrie ops).2) ∧
      t.lookup topicMaxDepth q = (runOps Trie.step newTrie ops).1.lookup topicMaxDepth q := by
  obtain ⟨t, run, h⟩ := Mirrors.empty.run ops
  obtain ⟨live, L⟩ := h.links
  exact ⟨t, run, ilookupAt_eq topicMaxDepth _ L _ _ q 0 L.root (Nat.sub_le _ _) h.root⟩

end UnitDB.Guarantees.TopicTrieHeapRefinement
