import UnitDB.Source.TopicTrieHeap
import UnitDB.Guarantees.TopicTrieRefinement

/-!
# Parent pointers and orphans in the heap of parts

Over every run of `Add` and `Remove` from `NewTrie`, on the heap of parts: `orphan` never runs
out of parents to climb, the root has no parent, and every part reachable from the root
through a children map has its `parent` pointer at the part whose map holds it, its key `k` the
key it is held under, and a seq or a child (`reachable_parts_linked`).

The invariant behind it, `Links`, is kept around a ghost list `live` of parts that holds every
reachable one, and a part `x` that alone may be bare: the part a call is at. `Add`'s loop
moves `x` down to the part it creates, which the next step gives a child and the last step a
seq; `Remove` makes the part it ends at `x`, and each step of `orphan` deletes `x` from `live`
and from its parent's map, and makes the parent `x`. Each step of `orphan` shrinks `live`, so
the heap's size is fuel enough.

`Links` also holds that a part is allocated after its parent, so the parent pointers have no
cycle. From it, the parts below two children of one part are apart and no part is below its own
children (`Links.below_apart`, `Links.not_below_child`): what a write below one child does is
not seen from the others.
-/

set_option autoImplicit false

namespace UnitDB.Guarantees.TopicTrieLinks
open UnitDB.Source UnitDB.Source.TopicTrie
open UnitDB.Guarantees.TopicTrieRefinement (TrieOp)

/-! ## Runs on the heap -/

/-- A call of `Add` or `Remove` on the heap; `none` if `orphan` runs out of fuel. -/
def heapStep (t : HeapTrie) : TrieOp → Option (HeapTrie × Bool)
  | .add parts depth seq => some (t.add parts depth seq)
  | .remove parts seq => t.remove parts seq

/-- A sequential run: the trie after `ops`, and what each call returned. -/
def runHeap (t : HeapTrie) : List TrieOp → Option (HeapTrie × List Bool)
  | [] => some (t, [])
  | op :: ops => (heapStep t op).bind fun r => (runHeap r.1 ops).map fun r' => (r'.1, r.2 :: r'.2)

theorem PartCell.bare_of_mem {c : PartCell} {e : Key × Nat} (h : e ∈ c.children) : c.Bare = false := by
  simp [PartCell.Bare, List.isEmpty_iff, List.ne_nil_of_mem h]

/-! ## The invariant -/

/-- The heap's shape around the parts `live`, which hold every reachable part, where only `x`
may be bare. -/
structure Links (heap : Heap) (live : List Nat) (x : Nat) : Prop where
  root : 0 ∈ live
  rootParent : (deref heap 0).parent = none
  allocated : ∀ a ∈ live, a < heap.length
  nodup : live.Nodup
  keys : ∀ a ∈ live, ((deref heap a).children.map (·.1)).Nodup
  down : ∀ a ∈ live, ∀ k c, (k, c) ∈ (deref heap a).children →
    c ∈ live ∧ (deref heap c).parent = some a ∧ (deref heap c).k = k
  up : ∀ c ∈ live, c ≠ 0 →
    ∃ p ∈ live, (deref heap c).parent = some p ∧ ((deref heap c).k, c) ∈ (deref heap p).children
  tidy : ∀ a ∈ live, a ≠ 0 → a ≠ x → (deref heap a).Bare = false
  /-- A part is allocated after its parent. -/
  older : ∀ a ∈ live, ∀ p, (deref heap a).parent = some p → p < a

section
variable {heap : Heap} {live : List Nat} {x : Nat}

/-- The part that may be bare can be moved once it is the root or is not bare. -/
theorem Links.retarget (L : Links heap live x) (h : x = 0 ∨ (deref heap x).Bare = false) (y : Nat) :
    Links heap live y :=
  { L with
    tidy := fun a ha h0 _ => by
      by_cases ax : a = x
      · subst ax
        exact h.resolve_left h0
      · exact L.tidy a ha h0 ax }

theorem Links.mem_of_reach (L : Links heap live x) {a : Nat} (h : Reach heap a) : a ∈ live := by
  induction h with
  | root => exact L.root
  | child _ edge ih => exact (L.down _ ih _ _ edge).1

theorem Links.length_le (L : Links heap live x) : live.length ≤ heap.length := by
  have sub := List.subperm_of_subset L.nodup fun a ha => List.mem_range.mpr (L.allocated a ha)
  simpa using sub.length_le

theorem Links.ne_zero_of_parent (L : Links heap live x) {a p : Nat} (h : (deref heap a).parent = some p) :
    a ≠ 0 := by
  rintro rfl
  rw [L.rootParent] at h
  cases h

theorem newPartTrie_links : Links newPartTrie [0] 0 where
  root := List.mem_singleton_self 0
  rootParent := rfl
  allocated _ h := by simp_all [newPartTrie]
  nodup := List.nodup_singleton 0
  keys _ h := by simp_all [deref, newPartTrie, PartCell.zero]
  down _ h := by simp_all [deref, newPartTrie, PartCell.zero]
  up _ h h0 := absurd (List.mem_singleton.mp h) h0
  tidy _ h h0 := absurd (List.mem_singleton.mp h) h0
  older _ h := by simp_all [deref, newPartTrie, PartCell.zero]

/-! ## One step of a call -/

/-- Writing the seq set or the depth of the part `x`. -/
theorem Links.setCell (L : Links heap live x) (hx : x ∈ live) (c : PartCell) (hk : c.k = (deref heap x).k)
    (hp : c.parent = (deref heap x).parent) (hc : c.children = (deref heap x).children) :
    Links (heap.set x c) live x := by
  have bound := L.allocated x hx
  have same : ∀ a, (deref (heap.set x c) a).k = (deref heap a).k ∧
      (deref (heap.set x c) a).parent = (deref heap a).parent ∧
      (deref (heap.set x c) a).children = (deref heap a).children := by
    intro a
    rw [deref_set _ _ _ bound]
    split
    · subst a
      exact ⟨hk, hp, hc⟩
    · exact ⟨rfl, rfl, rfl⟩
  refine ⟨L.root, (same 0).2.1 ▸ L.rootParent, by simpa using L.allocated, L.nodup, ?_, ?_, ?_, ?_, ?_⟩
  · simpa only [(same _).2.2] using L.keys
  · simpa only [(same _).2.2, (same _).2.1, (same _).1] using L.down
  · simpa only [(same _).2.2, (same _).2.1, (same _).1] using L.up
  · intro a ha h0 ax
    rw [deref_set _ _ _ bound, if_neg ax]
    exact L.tidy a ha h0 ax
  · simpa only [(same _).2.1] using L.older

/-- `Add`'s step at a missing child: the part is allocated at the end of the heap and stored in
`x`'s map; it is the one that may be bare now. -/
theorem Links.alloc (L : Links heap live x) (hx : x ∈ live) {k : Key}
    (miss : mapGet (deref heap x).children k = none) (c : PartCell) (hk : c.k = (deref heap x).k)
    (hp : c.parent = (deref heap x).parent) (hc : c.children = mapSet (deref heap x).children k heap.length) :
    Links (heap.set x c ++ [⟨k, 0, [], some x, []⟩]) (live ++ [heap.length]) heap.length := by
  obtain ⟨fresh, grow⟩ := mapGet_eq_none miss
  rw [grow] at hc
  have get : ∀ a, deref (heap.set x c ++ [⟨k, 0, [], some x, []⟩]) a =
      if a = heap.length then ⟨k, 0, [], some x, []⟩ else if a = x then c else deref heap a := fun a => by
    rw [deref_append, List.length_set, deref_set _ _ _ (L.allocated x hx)]
  have old : ∀ a ∈ live, a ≠ heap.length := fun a ha h => (L.allocated a ha).ne h
  have was : ∀ a ∈ live ++ [heap.length], a ≠ heap.length → a ∈ live := fun a ha ne =>
    (List.mem_append.mp ha).resolve_right fun h => ne (List.mem_singleton.mp h)
  have kept : ∀ a ∈ live, (deref (heap.set x c ++ [⟨k, 0, [], some x, []⟩]) a).parent = (deref heap a).parent ∧
      (deref (heap.set x c ++ [⟨k, 0, [], some x, []⟩]) a).k = (deref heap a).k := fun a ha => by
    rw [get, if_neg (old a ha)]
    split
    · subst a
      exact ⟨hp, hk⟩
    · exact ⟨rfl, rfl⟩
  have holds : (k, heap.length) ∈ c.children := hc ▸ List.mem_append_right _ (List.mem_singleton_self _)
  refine ⟨List.mem_append_left _ L.root, (kept 0 L.root).1.trans L.rootParent, ?_,
    L.nodup.append (List.nodup_singleton _) (List.disjoint_singleton.mpr fun h => old _ h rfl), ?_, ?_, ?_, ?_, ?_⟩
  · intro a ha
    rw [List.length_append, List.length_set, List.length_singleton]
    rcases List.mem_append.mp ha with ha | ha
    · exact Nat.lt_succ_of_lt (L.allocated a ha)
    · exact List.mem_singleton.mp ha ▸ Nat.lt_succ_self _
  · intro a ha
    rw [get]
    split
    · exact List.nodup_nil
    · split
      · rw [hc, List.map_append]
        exact (L.keys _ hx).append (List.nodup_singleton _) (List.disjoint_singleton.mpr fresh)
      · exact L.keys a (was a ha ‹_›)
  · intro a ha k' e he
    rw [get] at he
    split at he
    · cases he
    · have below : (k', e) ∈ (deref heap a).children ∨ (a = x ∧ (k', e) = (k, heap.length)) := by
        split at he
        · subst a
          rw [hc] at he
          simpa [or_comm] using he
        · exact .inl he
      rcases below with below | ⟨rfl, new⟩
      · obtain ⟨he, parent, key⟩ := L.down a (was a ha ‹_›) k' e below
        exact ⟨List.mem_append_left _ he, (kept e he).1.trans parent, (kept e he).2.trans key⟩
      · obtain ⟨rfl, rfl⟩ := Prod.mk.inj new
        rw [get, if_pos rfl]
        exact ⟨List.mem_append_right _ (List.mem_singleton_self _), rfl, rfl⟩
  · intro e he e0
    rcases List.mem_append.mp he with he | new
    · obtain ⟨p, hp', parent, held⟩ := L.up e he e0
      refine ⟨p, List.mem_append_left _ hp', (kept e he).1.trans parent, ?_⟩
      rw [(kept e he).2, get, if_neg (old p hp')]
      split
      · subst p
        exact hc ▸ List.mem_append_left _ held
      · exact held
    · rw [List.mem_singleton.mp new]
      refine ⟨x, List.mem_append_left _ hx, by rw [get, if_pos rfl], ?_⟩
      rw [get, if_pos rfl, get, if_neg (old x hx), if_pos rfl]
      exact holds
  · intro a ha h0 an
    rw [get, if_neg an]
    split
    · subst a
      exact PartCell.bare_of_mem holds
    · exact L.tidy a (was a ha an) h0 ‹_›
  · intro a ha p parent
    rcases List.mem_append.mp ha with ha | new
    · exact L.older a ha p ((kept a ha).1.symm.trans parent)
    · obtain rfl := List.mem_singleton.mp new
      rw [get, if_pos rfl] at parent
      exact Option.some.inj parent ▸ L.allocated x hx

/-- A step of `orphan` at the bare part `x`: `x` leaves its parent's map and `live`, and the
parent is the one that may be bare now. -/
theorem Links.unlink (L : Links heap live x) (hx : x ∈ live) (bare : (deref heap x).Bare = true) {q : Nat}
    (hq : (deref heap x).parent = some q) (c : PartCell) (hk : c.k = (deref heap q).k)
    (hp : c.parent = (deref heap q).parent) (hc : c.children = mapDelete (deref heap q).children (deref heap x).k) :
    q ∈ live.erase x ∧ Links (heap.set q c) (live.erase x) q := by
  have x0 := L.ne_zero_of_parent hq
  obtain ⟨q', hq', parent, held⟩ := L.up x hx x0
  obtain rfl : q' = q := Option.some.inj (parent.symm.trans hq)
  have bound := L.allocated q' hq'
  have noChild : ∀ a e, e ∈ (deref heap a).children → a ≠ x := fun a e h ax => by
    subst ax
    rw [PartCell.bare_of_mem h] at bare
    cases bare
  have get : ∀ a, deref (heap.set q' c) a = if a = q' then c else deref heap a := fun a => deref_set _ _ _ bound
  have kept : ∀ a, (deref (heap.set q' c) a).parent = (deref heap a).parent ∧
      (deref (heap.set q' c) a).k = (deref heap a).k := by
    intro a
    rw [get]
    split
    · subst a
      exact ⟨hp, hk⟩
    · exact ⟨rfl, rfl⟩
  have keyed := L.keys q' hq'
  have mem : ∀ c, c ∈ live → c ≠ x → c ∈ live.erase x := fun c hc cx => (List.mem_erase_of_ne cx).mpr hc
  refine ⟨mem q' hq' (noChild q' _ held), mem 0 L.root x0.symm, (kept 0).1.trans L.rootParent,
    fun a ha => (List.length_set ..).symm ▸ L.allocated a (List.mem_of_mem_erase ha), L.nodup.erase x, ?_, ?_, ?_, ?_,
    fun a ha p parent => L.older a (List.mem_of_mem_erase ha) p ((kept a).1.symm.trans parent)⟩
  · intro a ha
    rw [get]
    split
    · rw [hc]
      exact keyed.sublist ((mapDelete_sublist _ _).map _)
    · exact L.keys a (List.mem_of_mem_erase ha)
  · intro a ha k e he
    have ha' := List.mem_of_mem_erase ha
    rw [get] at he
    split at he
    · subst a
      obtain ⟨he, ne⟩ := (mem_mapDelete keyed _ _).mp (hc ▸ he)
      obtain ⟨he', parent', key⟩ := L.down q' ha' k e he
      exact ⟨mem e he' fun ex => ne (ex ▸ key.symm), (kept e).1.trans parent', (kept e).2.trans key⟩
    · obtain ⟨he', parent', key⟩ := L.down a ha' k e he
      refine ⟨mem e he' fun ex => ‹¬a = q'› ?_, (kept e).1.trans parent', (kept e).2.trans key⟩
      subst ex
      exact Option.some.inj (parent'.symm.trans hq)
  · intro e he e0
    have ex := (L.nodup.mem_erase_iff.mp he).1
    obtain ⟨p, hp', parent', held'⟩ := L.up e (List.mem_of_mem_erase he) e0
    refine ⟨p, mem p hp' (noChild p _ held'), (kept e).1.trans parent', ?_⟩
    rw [(kept e).2, get]
    split
    · subst p
      refine hc ▸ (mem_mapDelete keyed _ _).mpr ⟨held', fun same => ex ?_⟩
      exact (Prod.mk.inj (List.inj_on_of_nodup_map keyed held' held same)).2
    · exact held'
  · intro a ha a0 aq
    rw [get, if_neg aq]
    exact L.tidy a (List.mem_of_mem_erase ha) a0 (L.nodup.mem_erase_iff.mp ha).1

/-! ## The loops -/

/-- `orphan` at a bare part of `live` ends, within as many steps as `live` has parts, with no
bare part left but the root. -/
theorem orphan_links : ∀ (fuel : Nat) (heap : Heap) (live : List Nat) (x : Nat), Links heap live x → x ∈ live →
    (deref heap x).Bare = true → live.length ≤ fuel → ∃ heap' live', orphan heap x fuel = some heap' ∧ Links heap' live' 0
  | 0, _, live, _, _, hx, _, short => absurd short (Nat.not_le.mpr (List.length_pos_of_mem hx))
  | fuel + 1, heap, live, x, L, hx, bare, short => by
    unfold orphan
    split
    · rename_i none
      have x0 : x = 0 := by
        by_contra x0
        obtain ⟨p, -, parent, -⟩ := L.up x hx x0
        rw [none] at parent
        cases parent
      exact ⟨heap, live, rfl, L.retarget (.inl x0) 0⟩
    · rename_i q hq
      obtain ⟨hq', L'⟩ :=
        L.unlink hx bare hq { deref heap q with children := mapDelete (deref heap q).children (deref heap x).k } rfl rfl rfl
      dsimp only
      split
      · rename_i bare'
        refine orphan_links fuel _ _ q L' hq' bare' ?_
        rw [List.length_erase_of_mem hx]
        omega
      · rename_i kept
        exact ⟨_, _, rfl, L'.retarget (.inr (Bool.eq_false_iff.mpr kept)) 0⟩

theorem addWalk_links : ∀ (parts : List Part) (heap : Heap) (curr : Nat) (live : List Nat),
    Links heap live curr → curr ∈ live →
      ∃ live', Links (addWalk heap curr parts).1 live' (addWalk heap curr parts).2 ∧
        (addWalk heap curr parts).2 ∈ live'
  | [], _, _, live, L, hc => ⟨live, L, hc⟩
  | p :: parts, heap, curr, live, L, hc => by
    unfold addWalk
    split
    · rename_i child found
      have held := mapGet_mem found
      exact addWalk_links parts heap child live (L.retarget (.inr (PartCell.bare_of_mem held)) child)
        (L.down curr hc _ _ held).1
    · rename_i miss
      exact addWalk_links parts _ heap.length _
        (L.alloc hc miss { deref heap curr with children := mapSet (deref heap curr).children p.key heap.length }
          rfl rfl rfl)
        (List.mem_append_right _ (List.mem_singleton_self _))

theorem findPart_mem (L : Links heap live x) : ∀ (parts : List Part) (curr : Nat) (c : Nat), curr ∈ live →
    findPart heap curr parts = some c → c ∈ live
  | [], _, _, hc, found => Option.some.inj found ▸ hc
  | p :: parts, curr, c, hc, found => by
    unfold findPart at found
    split at found
    · cases found
    · exact findPart_mem L parts _ c (L.down curr hc _ _ (mapGet_mem ‹_›)).1 found

end

/-! ## Below and apart -/

/-- The parts below `a`: `a`, and what the maps of the parts below it hold. -/
inductive Below (heap : Heap) (a : Nat) : Nat → Prop
  | refl : Below heap a a
  | child {p : Nat} {k : Key} {c : Nat} : Below heap a p → (k, c) ∈ (deref heap p).children → Below heap a c

theorem Below.trans {heap : Heap} {a b c : Nat} (h : Below heap a b) (h' : Below heap b c) : Below heap a c := by
  induction h' with
  | refl => exact h
  | child _ held ih => exact .child ih held

/-- Only `a` is below a part with an empty map. -/
theorem Below.leaf {heap : Heap} {a z : Nat} (leaf : (deref heap a).children = []) (h : Below heap a z) : z = a := by
  induction h with
  | refl => rfl
  | child _ held ih =>
    rw [ih, leaf] at held
    cases held

/-- `a` is `b`, or above it through the parent pointers. -/
inductive Ancestor (heap : Heap) : Nat → Nat → Prop
  | refl (a : Nat) : Ancestor heap a a
  | parent {b p a : Nat} : (deref heap b).parent = some p → Ancestor heap p a → Ancestor heap b a

/-- The ancestors of one part are in a line. -/
theorem Ancestor.linear {heap : Heap} {b a a' : Nat} (h : Ancestor heap b a) (h' : Ancestor heap b a') :
    Ancestor heap a a' ∨ Ancestor heap a' a := by
  induction h generalizing a' with
  | refl => exact .inl h'
  | parent up above ih =>
    cases h' with
    | refl => exact .inr (.parent up above)
    | parent up' h' => exact ih (Option.some.inj (up'.symm.trans up) ▸ h')

section Apart
variable {heap : Heap} {live : List Nat} {x : Nat}

theorem Links.le_of_ancestor (L : Links heap live x) {b a : Nat} (hb : b ∈ live) (h : Ancestor heap b a) :
    a ≤ b := by
  induction h with
  | refl => exact le_rfl
  | parent up _ ih =>
    obtain ⟨p, hp, up', -⟩ := L.up _ hb (L.ne_zero_of_parent up)
    obtain rfl := Option.some.inj (up'.symm.trans up)
    exact (ih hp).trans (L.older _ hb _ up).le

/-- A part below a part of `live` is in `live`, and has it among its ancestors. -/
theorem Links.below (L : Links heap live x) {a z : Nat} (ha : a ∈ live) (h : Below heap a z) :
    z ∈ live ∧ Ancestor heap z a := by
  induction h with
  | refl => exact ⟨ha, .refl a⟩
  | child _ held ih =>
    obtain ⟨hc, up, -⟩ := L.down _ ih.1 _ _ held
    exact ⟨hc, .parent up ih.2⟩

/-- A part is not below its children. -/
theorem Links.not_below_child (L : Links heap live x) {p c : Nat} {k : Key} (hp : p ∈ live)
    (held : (k, c) ∈ (deref heap p).children) : ¬ Below heap c p := fun h => by
  obtain ⟨hc, up, -⟩ := L.down p hp k c held
  have above := L.le_of_ancestor hp (L.below hc h).2
  have older := L.older c hc p up
  omega

/-- Of two children of one part, neither is an ancestor of the other. -/
theorem Links.not_ancestor_sibling (L : Links heap live x) {p b c : Nat} {k k' : Key} (hp : p ∈ live)
    (hb : (k', b) ∈ (deref heap p).children) (hc : (k, c) ∈ (deref heap p).children) (ne : k' ≠ k) :
    ¬ Ancestor heap b c := fun h => by
  obtain ⟨-, upb, kb⟩ := L.down p hp k' b hb
  obtain ⟨hc', upc, kc⟩ := L.down p hp k c hc
  cases h with
  | refl => exact ne (kb.symm.trans kc)
  | parent up h =>
    obtain rfl := Option.some.inj (up.symm.trans upb)
    have above := L.le_of_ancestor hp h
    have older := L.older c hc' _ upc
    omega

/-- The parts below two children of one part are apart. -/
theorem Links.below_apart (L : Links heap live x) {p b c z : Nat} {k k' : Key} (hp : p ∈ live)
    (hb : (k', b) ∈ (deref heap p).children) (hc : (k, c) ∈ (deref heap p).children) (ne : k' ≠ k)
    (below : Below heap b z) : ¬ Below heap c z := fun below' => by
  rcases (L.below (L.down p hp k' b hb).1 below).2.linear (L.below (L.down p hp k c hc).1 below').2 with h | h
  · exact L.not_ancestor_sibling hp hb hc ne h
  · exact L.not_ancestor_sibling hp hc hb (Ne.symm ne) h

end Apart

/-! ## Runs -/

/-- The trie's heap keeps `Links`, with no bare part but the root. -/
def TrieLinks (t : HeapTrie) : Prop := ∃ live, Links t.heap live 0

theorem add_links {t : HeapTrie} (h : TrieLinks t) (parts : List Part) (depth : UInt8) (seq : UInt64) :
    TrieLinks (t.add parts depth seq).1 := by
  obtain ⟨live, L⟩ := h
  obtain ⟨live', L', hc⟩ := addWalk_links parts t.heap 0 live (L.retarget (.inl rfl) 0) L.root
  have L'' := L'.setCell hc { deref (addWalk t.heap 0 parts).1 (addWalk t.heap 0 parts).2 with
    ss := (deref (addWalk t.heap 0 parts).1 (addWalk t.heap 0 parts).2).ss ++ [seq], depth } rfl rfl rfl
  refine ⟨live', L''.retarget (.inr ?_) 0⟩
  rw [deref_set _ _ _ (L'.allocated _ hc), if_pos rfl]
  simp [PartCell.Bare]

theorem remove_links {t : HeapTrie} (h : TrieLinks t) (parts : List Part) (seq : UInt64) :
    ∃ r, t.remove parts seq = some r ∧ TrieLinks r.1 := by
  obtain ⟨live, L⟩ := h
  unfold HeapTrie.remove
  split
  · exact ⟨_, rfl, live, L⟩
  · rename_i curr found
    have hc := findPart_mem L parts 0 curr L.root found
    have L' := (L.retarget (.inl rfl) curr).setCell hc
      { deref t.heap curr with ss := (Ssid.remove (deref t.heap curr).ss seq).1 } rfl rfl rfl
    dsimp only
    split
    · rename_i bare
      obtain ⟨heap', live', run, L''⟩ := orphan_links _ _ _ _ L' hc bare L'.length_le
      rw [run]
      exact ⟨_, rfl, live', L''⟩
    · rename_i kept
      exact ⟨_, rfl, live, L'.retarget (.inr (Bool.eq_false_iff.mpr kept)) 0⟩

theorem run_links : ∀ (ops : List TrieOp) (t : HeapTrie), TrieLinks t → ∃ r, runHeap t ops = some r ∧ TrieLinks r.1
  | [], t, h => ⟨_, rfl, h⟩
  | .add parts depth seq :: ops, t, h => by
    obtain ⟨r, run, h'⟩ := run_links ops _ (add_links h parts depth seq)
    exact ⟨(r.1, (t.add parts depth seq).2 :: r.2), by simp [runHeap, heapStep, run], h'⟩
  | .remove parts seq :: ops, t, h => by
    obtain ⟨r, removed, h'⟩ := remove_links h parts seq
    obtain ⟨r', run, h''⟩ := run_links ops _ h'
    exact ⟨(r'.1, r.2 :: r'.2), by simp [runHeap, heapStep, removed, run], h''⟩

/-- Over every run of `Add` and `Remove` from `NewTrie`: no call runs out of parents to climb,
the root has no parent, and every part a reachable part's map holds has its `parent` pointer at
that part, its `k` the key it is held under, and a seq or a child. -/
theorem reachable_parts_linked (ops : List TrieOp) :
    ∃ t results, runHeap newHeapTrie ops = some (t, results) ∧ (deref t.heap 0).parent = none ∧
      ∀ p, Reach t.heap p → ∀ k a, (k, a) ∈ (deref t.heap p).children →
        (deref t.heap a).parent = some p ∧ (deref t.heap a).k = k ∧ (deref t.heap a).Bare = false := by
  obtain ⟨⟨t, results⟩, run, live, L⟩ := run_links ops newHeapTrie ⟨[0], newPartTrie_links⟩
  refine ⟨t, results, run, L.rootParent, fun p hp k a held => ?_⟩
  obtain ⟨ha, parent, key⟩ := L.down p (L.mem_of_reach hp) k a held
  have a0 := L.ne_zero_of_parent parent
  exact ⟨parent, key, L.tidy a ha a0 a0⟩

/-- Removing the one seq under `[1, 2]` deletes both parts `Add` created: the root's map is empty
again. -/
example : (runHeap newHeapTrie [.add [⟨1, 0⟩, ⟨2, 0⟩] 1 5, .remove [⟨1, 0⟩, ⟨2, 0⟩] 5]).map
    (fun r => ((deref r.1.heap 0).children, r.2)) = some ([], [true, true]) := rfl

end UnitDB.Guarantees.TopicTrieLinks
