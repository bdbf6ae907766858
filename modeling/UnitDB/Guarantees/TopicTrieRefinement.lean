import UnitDB.Source.TopicTrieEntries

/-!
# The topic trie refines a bag of (topic, seq) pairs

What the trie is for, independently of its parts and maps: a `TopicBag` holds each
`(key path, seq)` pair as often as it was added and not yet removed, and the depth of the last
`Add` at each path. `Add` puts one occurrence in, `Remove` takes one out if there is one and
says whether there was, and `Lookup` of a query `q` returns the seqs of the pairs whose path
consumes a prefix of `q` and whose path's depth is `len(q)-1` or, at least `TopicMaxDepth`,
is within `len(q)-1` of it.

* `Refines`: the trie's entries are the bag's pairs, each with its path's depth, and `count`
  is the bag's size; every `Add` and `Remove` keeps it and returns what the bag returns
  (`Refines.step`), so it holds along every sequential run from `NewTrie`.
* `trie_refines_topic_bag`: over every run, `Remove` answers as the bag, `Count()` is the
  bag's size, and `Lookup` returns the bag's seqs up to order, for every query of 1 to 255
  parts when no key above a stored seq has 255 wildchars.
* `reachable_trie_tidy`: every trie a run reaches has distinct keys in each children map and
  no part but the root left with no seq and no child.

The bounds are the trie's `uint8` arithmetic: `uint8(len(parts)-1)` and `uint8(len(parts))`
wrap at 256 parts, and `k.wildchars+1` wraps to 0 for 255 wildchars, where such a key consumes
no part of the query.
-/

set_option autoImplicit false

namespace UnitDB.Guarantees.TopicTrieRefinement
open UnitDB.Source UnitDB.Source.TopicTrie

/-- The trie's meaning: the stored `(key path, seq)` pairs, as often as each is stored, and the
depth of the last `Add` at each path. -/
structure TopicBag where
  entries : List (List Key × UInt64)
  depthOf : List Key → UInt8

namespace TopicBag

def empty : TopicBag := ⟨[], fun _ => 0⟩

def add (b : TopicBag) (P : List Key) (d : UInt8) (s : UInt64) : TopicBag × Bool :=
  (⟨b.entries ++ [(P, s)], fun Q => if Q = P then d else b.depthOf Q⟩, true)

def remove (b : TopicBag) (P : List Key) (s : UInt64) : TopicBag × Bool :=
  if (P, s) ∈ b.entries then ({ b with entries := b.entries.erase (P, s) }, true) else (b, false)

/-- The depth test on a path of depth `D`, for a query of `n` parts. -/
def DepthMatches (topicMaxDepth D : UInt8) (n : Nat) : Prop :=
  D.toNat = n - 1 ∨ (topicMaxDepth.toNat ≤ D.toNat ∧ n - 1 > D.toNat - topicMaxDepth.toNat)

instance (topicMaxDepth D : UInt8) (n : Nat) : Decidable (DepthMatches topicMaxDepth D n) :=
  inferInstanceAs (Decidable (_ ∨ _))

def lookup (topicMaxDepth : UInt8) (b : TopicBag) (q : List Part) : List UInt64 :=
  (b.entries.filter fun e => Consumes e.1 q && decide (DepthMatches topicMaxDepth (b.depthOf e.1) q.length)).map (·.2)

/-- A pair with its path's depth, as the trie stores it. -/
def tag (b : TopicBag) (e : List Key × UInt64) : Entry := (e.1, b.depthOf e.1, e.2)

theorem tag_injective (b : TopicBag) : Function.Injective b.tag := fun e e' h => by
  simp only [tag, Prod.mk.injEq] at h
  exact Prod.ext h.1 h.2.2

end TopicBag

/-- A call of `Add` or `Remove`. -/
inductive TrieOp
  | add (parts : List Part) (depth : UInt8) (seq : UInt64)
  | remove (parts : List Part) (seq : UInt64)

def Trie.step (t : Trie) : TrieOp → Trie × Bool
  | .add parts depth seq => t.add parts depth seq
  | .remove parts seq => t.remove parts seq

def TopicBag.step (b : TopicBag) : TrieOp → TopicBag × Bool
  | .add parts depth seq => b.add (parts.map Part.key) depth seq
  | .remove parts seq => b.remove (parts.map Part.key) seq

/-- A sequential run: the state after `ops`, and what each call returned. -/
def runOps {σ : Type} (step : σ → TrieOp → σ × Bool) : σ → List TrieOp → σ × List Bool
  | s, [] => (s, [])
  | s, op :: ops => ((runOps step (step s op).1 ops).1, (step s op).2 :: (runOps step (step s op).1 ops).2)

/-- Trie `t` stands for bag `b`. -/
structure Refines (t : Trie) (b : TopicBag) : Prop where
  wf : t.root.WF
  entries : t.root.entries.Perm (b.entries.map b.tag)
  count : t.count = b.entries.length

theorem Refines.empty : Refines newTrie TopicBag.empty :=
  ⟨empty_WF, by simp [newTrie, PartNode.empty, TopicBag.empty], rfl⟩

theorem Refines.add {t : Trie} {b : TopicBag} (h : Refines t b) (parts : List Part) (d : UInt8) (s : UInt64) :
    Refines (t.add parts d s).1 (b.add (parts.map Part.key) d s).1 := by
  obtain ⟨wf', entries'⟩ := add_spec d s parts t.root h.wf
  have retagged : (b.entries.map b.tag).map (retag (parts.map Part.key) d) =
      b.entries.map (b.add (parts.map Part.key) d s).1.tag := by
    simp only [List.map_map]
    refine List.map_congr_left fun e _ => ?_
    by_cases same : e.1 = parts.map Part.key <;> simp [retag, TopicBag.tag, TopicBag.add, same]
  refine ⟨wf', entries'.trans ?_, ?_⟩
  · have moved := (h.entries.map (retag (parts.map Part.key) d)).cons (parts.map Part.key, d, s)
    rw [retagged] at moved
    refine moved.trans ((List.perm_append_singleton _ _).symm.trans (List.Perm.of_eq ?_))
    simp [TopicBag.add, TopicBag.tag]
  · simp [Trie.add, TopicBag.add, h.count]

/-- `List.erase` is the same under any lawful equality test. -/
theorem erase_lawful_eq {α : Type} [BEq α] [LawfulBEq α] [DecidableEq α] (l : List α) (a : α) :
    l.erase a = @List.erase α instBEqOfDecidableEq l a := by
  induction l with
  | nil => rfl
  | cons x l ih => simp only [List.erase_cons, beq_iff_eq, ih]

/-- Where the entries satisfying `p` are those equal to `a`, erasing the first of them is erasing
`a`. -/
theorem eraseP_eq_erase {α : Type} [DecidableEq α] {l : List α} {p : α → Bool} {a : α}
    (hp : ∀ x ∈ l, p x = true ↔ x = a) : l.eraseP p = l.erase a := by
  induction l with
  | nil => rfl
  | cons x l ih =>
    have ih := ih fun y hy => hp y (List.mem_cons_of_mem _ hy)
    by_cases hx : x = a
    · subst hx
      rw [List.eraseP_cons_of_pos ((hp x (List.mem_cons_self _ _)).mpr rfl), List.erase_cons_head]
    · rw [List.eraseP_cons_of_neg fun h => hx ((hp x (List.mem_cons_self _ _)).mp h),
        List.erase_cons_tail (by simpa using hx), ih]

theorem hits_tag (b : TopicBag) (P : List Key) (s : UInt64) (e : List Key × UInt64) :
    Hits P s (b.tag e) = true ↔ b.tag e = b.tag (P, s) := by
  rw [b.tag_injective.eq_iff]
  simp [Hits, TopicBag.tag, Prod.ext_iff]

theorem Refines.remove {t : Trie} {b : TopicBag} (h : Refines t b) (parts : List Part) (s : UInt64) :
    Refines (t.remove parts s).1 (b.remove (parts.map Part.key) s).1 ∧
      (t.remove parts s).2 = (b.remove (parts.map Part.key) s).2 := by
  have spec := remove_spec s parts t.root h.wf
  have hits : ∀ x ∈ t.root.entries, Hits (parts.map Part.key) s x = true ↔ x = b.tag (parts.map Part.key, s) :=
    fun x hx => by
      obtain ⟨e, -, rfl⟩ := List.mem_map.mp (h.entries.subset hx)
      exact hits_tag b _ s e
  have stored : (parts.map Part.key, s) ∈ b.entries → b.tag (parts.map Part.key, s) ∈ t.root.entries :=
    fun mem => h.entries.symm.subset (List.mem_map_of_mem _ mem)
  unfold Trie.remove
  rcases found : t.root.remove s parts with _ | ⟨root, removed⟩
  · simp only [found, RemoveSpec] at spec
    have absent : (parts.map Part.key, s) ∉ b.entries := fun mem => spec _ (stored mem) rfl
    simp only [TopicBag.remove, absent, if_false]
    exact ⟨h, trivial⟩
  · simp only [found, RemoveSpec] at spec
    obtain ⟨wf', perm, hit⟩ := spec
    by_cases mem : (parts.map Part.key, s) ∈ b.entries
    · have removed_true : removed = true := hit ▸ List.any_eq_true.mpr ⟨_, stored mem, (hits _ (stored mem)).mpr rfl⟩
      simp only [TopicBag.remove, mem, if_true, removed_true]
      refine ⟨⟨wf', ?_, ?_⟩, trivial⟩
      · rw [eraseP_eq_erase hits] at perm
        refine perm.trans ((h.entries.erase _).trans (List.Perm.of_eq ?_))
        rw [erase_lawful_eq b.entries]
        exact (List.map_erase b.tag_injective _).symm
      · have := List.length_pos_of_mem mem
        simp only [h.count, List.length_erase_of_mem mem]
        omega
    · have none : ∀ x ∈ t.root.entries, ¬Hits (parts.map Part.key) s x = true := fun x hx hx' => mem (by
        obtain ⟨e, he, rfl⟩ := List.mem_map.mp (h.entries.subset hx)
        exact b.tag_injective ((hits _ hx).mp hx') ▸ he)
      simp only [TopicBag.remove, mem, if_false, hit, List.any_eq_false.mpr none]
      exact ⟨⟨wf', perm.trans (by rw [List.eraseP_of_forall_not none]; exact h.entries), h.count⟩, trivial⟩

theorem Refines.step {t : Trie} {b : TopicBag} (h : Refines t b) :
    ∀ op, Refines (Trie.step t op).1 (b.step op).1 ∧ (Trie.step t op).2 = (b.step op).2
  | .add parts d s => ⟨h.add parts d s, rfl⟩
  | .remove parts s => h.remove parts s

theorem Refines.run {t : Trie} {b : TopicBag} (h : Refines t b) : ∀ ops,
    Refines (runOps Trie.step t ops).1 (runOps TopicBag.step b ops).1 ∧
      (runOps Trie.step t ops).2 = (runOps TopicBag.step b ops).2
  | [] => ⟨h, rfl⟩
  | op :: ops => by
    obtain ⟨h', same⟩ := h.step op
    obtain ⟨reached, rest⟩ := h'.run ops
    exact ⟨reached, by simp only [runOps, same, rest]⟩

/-- `ilookup`'s depth test, for a query of `n` parts with `1 ≤ n < 256`, is the bag's. -/
theorem matchesDepth_iff (topicMaxDepth D : UInt8) {n : Nat} (nonempty : 1 ≤ n) (short : n < 256) :
    MatchesDepth topicMaxDepth D (n.toUInt8 - 1) ↔ TopicBag.DepthMatches topicMaxDepth D n := by
  have le (a c : UInt8) : a ≤ c ↔ a.toNat ≤ c.toNat := UInt8.le_def.trans BitVec.le_def
  have depth : (n.toUInt8 - 1).toNat = n - 1 := by
    rw [UInt8.toNat_sub_of_le _ _ ((le _ _).mpr (by rw [toNat_toUInt8 short]; exact nonempty)), toNat_toUInt8 short]
    rfl
  refine or_congr ⟨fun same => same ▸ depth, fun same => UInt8.toNat.inj (same.trans depth.symm)⟩ ?_
  rw [le]
  exact and_congr_right fun inside => by
    rw [gt_iff_lt, UInt8.lt_def, BitVec.lt_def]
    show (D - topicMaxDepth).toNat < (n.toUInt8 - 1).toNat ↔ _
    rw [UInt8.toNat_sub_of_le _ _ ((le _ _).mpr inside), depth]

theorem Refines.lookup {t : Trie} {b : TopicBag} (h : Refines t b) (topicMaxDepth : UInt8) (q : List Part)
    (nonempty : 1 ≤ q.length) (short : q.length < 256) (narrow : ∀ e ∈ b.entries, ∀ k ∈ e.1, k.wildchars < 255) :
    (t.lookup topicMaxDepth q).Perm (b.lookup topicMaxDepth q) := by
  have narrow' : Narrow t.root.entries := fun x hx => by
    obtain ⟨e, he, rfl⟩ := List.mem_map.mp (h.entries.subset hx)
    exact narrow e he
  rw [Trie.lookup, ilookup_eq _ _ _ _ short narrow']
  refine ((h.entries.filter _).map _).trans (List.Perm.of_eq ?_)
  rw [TopicBag.lookup, List.filter_map, List.map_map]
  congr 1
  exact List.filter_congr fun e _ => by
    simp [Found, TopicBag.tag, matchesDepth_iff _ _ nonempty short]

theorem trie_refines_topic_bag (topicMaxDepth : UInt8) (ops : List TrieOp) :
    (runOps Trie.step newTrie ops).2 = (runOps TopicBag.step TopicBag.empty ops).2 ∧
      (runOps Trie.step newTrie ops).1.count = (runOps TopicBag.step TopicBag.empty ops).1.entries.length ∧
      ∀ q : List Part, 1 ≤ q.length → q.length < 256 →
        (∀ e ∈ (runOps TopicBag.step TopicBag.empty ops).1.entries, ∀ k ∈ e.1, k.wildchars < 255) →
        ((runOps Trie.step newTrie ops).1.lookup topicMaxDepth q).Perm
          ((runOps TopicBag.step TopicBag.empty ops).1.lookup topicMaxDepth q) :=
  have reached := Refines.empty.run ops
  ⟨reached.2, reached.1.count, fun q nonempty short narrow => reached.1.lookup topicMaxDepth q nonempty short narrow⟩

/-- Topic `1/2` added twice and topic `1` once, then the first `1/2` and the `1` removed. -/
def sampleOps : List TrieOp :=
  [.add [⟨1, 0⟩, ⟨2, 0⟩] 1 10, .add [⟨1, 0⟩] 0 11, .add [⟨1, 0⟩, ⟨2, 0⟩] 1 12, .remove [⟨1, 0⟩, ⟨2, 0⟩] 10,
    .remove [⟨1, 0⟩] 11]

theorem trie_refines_topic_bag_sample :
    1 ≤ [(⟨1, 0⟩ : Part), ⟨2, 0⟩].length ∧ [(⟨1, 0⟩ : Part), ⟨2, 0⟩].length < 256 ∧
      (∀ e ∈ (runOps TopicBag.step TopicBag.empty sampleOps).1.entries, ∀ k ∈ e.1, k.wildchars < 255) ∧
      ((runOps Trie.step newTrie sampleOps).1.lookup 4 [⟨1, 0⟩, ⟨2, 0⟩]).Perm
        ((runOps TopicBag.step TopicBag.empty sampleOps).1.lookup 4 [⟨1, 0⟩, ⟨2, 0⟩]) :=
  ⟨by decide, by decide, by decide, (trie_refines_topic_bag 4 sampleOps).2.2 _ (by decide) (by decide) (by decide)⟩

theorem reachable_trie_tidy (ops : List TrieOp) : (runOps Trie.step newTrie ops).1.root.WF :=
  (Refines.empty.run ops).1.wf

end UnitDB.Guarantees.TopicTrieRefinement
