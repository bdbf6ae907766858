import Mathlib.Data.List.Nodup
import UnitDB.Source.TopicTrie

/-!
# What a topic trie holds

The entries of a part: each seq of each seq set at or below it, with the keys from the part
down to the part holding it and that part's depth. `Add`, `Remove` and `Lookup` are then
read off the entries:

* `add_spec`: the descent of `Add` gives the part at the topic's path the new depth and
  appends one entry;
* `remove_spec`: the descent of `Remove` erases one entry of that path and seq, if there is
  one, and fails only where no entry has that path; the pruning of bare parts erases none;
* `ilookup_eq`: `ilookup` returns, in order, the seqs of the entries whose path consumes a
  prefix of the query and whose depth passes the test, as long as the query is shorter than
  256 parts and no key above an entry has 255 wildchars.

`WF` is what the descents keep: the keys of each children map are distinct, and no child is
bare (the spec's "a node is orphaned iff its seq set and its children are empty").
-/

namespace UnitDB.Source.TopicTrie

/-- A stored seq: the keys down to its part, that part's depth, the seq. -/
abbrev Entry := List Key × UInt8 × UInt64

/-- An entry of a child, seen from its parent. -/
def under (k : Key) (e : Entry) : Entry := (k :: e.1, e.2)

mutual
def PartNode.entries : PartNode → List Entry
  | ⟨d, ss, cs⟩ => ss.map (fun s => ([], d, s)) ++ childEntries cs

def childEntries : List (Key × PartNode) → List Entry
  | [] => []
  | (k, c) :: rest => c.entries.map (under k) ++ childEntries rest
end

mutual
/-- The keys of each children map are distinct and no child is bare. -/
def PartNode.WF : PartNode → Prop
  | ⟨_, _, cs⟩ => (cs.map (·.1)).Nodup ∧ ChildrenWF cs

def ChildrenWF : List (Key × PartNode) → Prop
  | [] => True
  | (_, c) :: rest => c.Bare = false ∧ c.WF ∧ ChildrenWF rest
end

@[simp] theorem entries_mk (d : UInt8) (ss : List UInt64) (cs : List (Key × PartNode)) :
    (⟨d, ss, cs⟩ : PartNode).entries = ss.map (fun s => ([], d, s)) ++ childEntries cs := by
  rw [PartNode.entries]

@[simp] theorem childEntries_nil : childEntries [] = [] := by rw [childEntries]

@[simp] theorem childEntries_cons (k : Key) (c : PartNode) (rest : List (Key × PartNode)) :
    childEntries ((k, c) :: rest) = c.entries.map (under k) ++ childEntries rest := by
  rw [childEntries]

@[simp] theorem childEntries_append (l₁ l₂ : List (Key × PartNode)) :
    childEntries (l₁ ++ l₂) = childEntries l₁ ++ childEntries l₂ := by
  induction l₁ with
  | nil => rfl
  | cons e rest ih => obtain ⟨k, c⟩ := e; simp [ih]

theorem WF_mk {d : UInt8} {ss : List UInt64} {cs : List (Key × PartNode)} :
    (⟨d, ss, cs⟩ : PartNode).WF ↔ (cs.map (·.1)).Nodup ∧ ChildrenWF cs := by
  rw [PartNode.WF]

theorem childrenWF_cons {k : Key} {c : PartNode} {rest : List (Key × PartNode)} :
    ChildrenWF ((k, c) :: rest) ↔ c.Bare = false ∧ c.WF ∧ ChildrenWF rest := by
  rw [ChildrenWF]

theorem childrenWF_append {l₁ l₂ : List (Key × PartNode)} :
    ChildrenWF (l₁ ++ l₂) ↔ ChildrenWF l₁ ∧ ChildrenWF l₂ := by
  induction l₁ with
  | nil => simp [ChildrenWF]
  | cons e rest ih => obtain ⟨k, c⟩ := e; simp [childrenWF_cons, ih, and_assoc]

theorem childrenWF_nil : ChildrenWF [] := by rw [ChildrenWF]; trivial

theorem empty_WF : PartNode.empty.WF := WF_mk.mpr ⟨List.nodup_nil, childrenWF_nil⟩

/-- A bare part holds nothing. -/
theorem entries_of_bare {c : PartNode} (bare : c.Bare = true) : c.entries = [] := by
  obtain ⟨d, ss, cs⟩ := c
  simp only [PartNode.Bare, Bool.and_eq_true, List.isEmpty_iff] at bare
  simp [bare.1, bare.2]

/-- An entry of a child is under the key the child is held at. -/
theorem mem_childEntries {e : Entry} {cs : List (Key × PartNode)} (h : e ∈ childEntries cs) :
    ∃ k P, e.1 = k :: P ∧ k ∈ cs.map (·.1) := by
  induction cs with
  | nil => simp at h
  | cons c rest ih =>
    obtain ⟨k, c⟩ := c
    rcases List.mem_append.mp (childEntries_cons k c rest ▸ h) with h | h
    · obtain ⟨e', -, rfl⟩ := List.mem_map.mp h
      exact ⟨k, e'.1, rfl, List.mem_cons_self _ _⟩
    · obtain ⟨k', P, he, hk⟩ := ih h
      exact ⟨k', P, he, List.mem_cons_of_mem _ hk⟩

/-- The entries of children held at keys other than `k` have paths that do not start with `k`. -/
theorem childEntries_off {cs : List (Key × PartNode)} {k : Key} (fresh : k ∉ cs.map (·.1)) (P : List Key) :
    ∀ e ∈ childEntries cs, e.1 ≠ k :: P := by
  intro e he same
  obtain ⟨k', P', he', hk'⟩ := mem_childEntries he
  rw [same, List.cons.injEq] at he'
  exact fresh (he'.1 ▸ hk')

/-- The seq-set entries of a part are at the empty path. -/
theorem own_off (d : UInt8) (ss : List UInt64) (k : Key) (P : List Key) :
    ∀ e ∈ ss.map (fun s => (([] : List Key), d, s)), e.1 ≠ k :: P := by
  simp

/-! ## `Add` -/

/-- What `Add` at path `P` with depth `d` does to an entry already stored: the entries of the
part at `P` take the new depth. -/
def retag (P : List Key) (d : UInt8) (e : Entry) : Entry := if e.1 = P then (e.1, d, e.2.2) else e

theorem map_retag_of_off {l : List Entry} {P : List Key} (d : UInt8) (off : ∀ e ∈ l, e.1 ≠ P) :
    l.map (retag P d) = l :=
  (List.map_congr_left fun e he => if_neg (off e he)).trans (List.map_id l)

theorem retag_under (k : Key) (P : List Key) (d : UInt8) (e : Entry) :
    retag (k :: P) d (under k e) = under k (retag P d e) := by
  by_cases same : e.1 = P <;> simp [retag, under, same]

/-- The part `Add` leaves at the end of a descent has a child or a seq. -/
theorem add_not_bare (d : UInt8) (s : UInt64) : ∀ (parts : List Part) (n : PartNode), (n.add d s parts).Bare = false
  | [], ⟨_, _, _⟩ => by simp [PartNode.add, PartNode.Bare]
  | _ :: _, ⟨_, _, _⟩ => by simp [PartNode.add, PartNode.Bare, mapSet_isEmpty]

theorem add_spec (d : UInt8) (s : UInt64) : ∀ (parts : List Part) (n : PartNode), n.WF →
    (n.add d s parts).WF ∧
      (n.add d s parts).entries.Perm ((parts.map Part.key, d, s) :: n.entries.map (retag (parts.map Part.key) d))
  | [], ⟨d₀, ss, cs⟩, wf => by
    refine ⟨by rwa [PartNode.add, WF_mk, ← WF_mk], ?_⟩
    have off : ∀ e ∈ childEntries cs, e.1 ≠ [] := fun e he => by
      obtain ⟨k, P, he, -⟩ := mem_childEntries he
      simp [he]
    have own : ss.map (retag [] d ∘ fun x => (([] : List Key), d₀, x)) = ss.map (fun x => ([], d, x)) :=
      List.map_congr_left fun x _ => by simp [retag]
    simp only [PartNode.add, entries_mk, List.map_append, List.map_map, List.map_nil, map_retag_of_off d off, own,
      List.append_assoc, List.map_cons, List.singleton_append]
    exact List.perm_middle
  | p :: parts, ⟨d₀, ss, cs⟩, wf => by
    obtain ⟨nodup, children⟩ := WF_mk.mp wf
    have own := map_retag_of_off d (own_off d₀ ss p.key (parts.map Part.key))
    simp only [PartNode.add]
    rcases found : mapGet cs p.key with _ | c
    · obtain ⟨fresh, set⟩ := mapGet_eq_none found
      obtain ⟨wf', entries'⟩ := add_spec d s parts .empty empty_WF
      simp only [Option.getD_none, set]
      refine ⟨WF_mk.mpr ⟨by simpa using nodup.concat fresh, childrenWF_append.mpr ⟨children,
        childrenWF_cons.mpr ⟨add_not_bare d s parts _, wf', childrenWF_nil⟩⟩⟩, ?_⟩
      have added : ((PartNode.empty.add d s parts).entries.map (under p.key)).Perm
          [(p.key :: parts.map Part.key, d, s)] := by
        simpa [PartNode.empty, under] using entries'.map (under p.key)
      simp only [entries_mk, childEntries_append, childEntries_cons, childEntries_nil, List.map_append, List.map_cons,
        own, map_retag_of_off d (childEntries_off fresh _), List.append_nil]
      refine ((added.append_left _).append_left _).trans ?_
      simpa only [← List.append_assoc] using List.perm_append_singleton _ _
    · obtain ⟨before, after, rfl, fresh, set, -⟩ := mapGet_eq_some found
      have fresh' : p.key ∉ after.map (·.1) := by
        simp only [List.map_append, List.map_cons] at nodup
        exact fun h => (List.nodup_cons.mp (List.nodup_middle.mp nodup)).1 (List.mem_append_right _ h)
      obtain ⟨-, wfc, wfa⟩ := childrenWF_cons.mp (childrenWF_append.mp children).2
      obtain ⟨wf', entries'⟩ := add_spec d s parts c wfc
      simp only [Option.getD_some, set]
      refine ⟨WF_mk.mpr ⟨by simpa using nodup, childrenWF_append.mpr ⟨(childrenWF_append.mp children).1,
        childrenWF_cons.mpr ⟨add_not_bare d s parts c, wf', wfa⟩⟩⟩, ?_⟩
      have retagged : (c.entries.map (retag (parts.map Part.key) d)).map (under p.key) =
          (c.entries.map (under p.key)).map (retag (p.key :: parts.map Part.key) d) := by
        simp only [List.map_map]
        exact List.map_congr_left fun e _ => (retag_under _ _ _ e).symm
      simp only [entries_mk, childEntries_append, childEntries_cons, List.map_append, List.map_cons, own,
        map_retag_of_off d (childEntries_off fresh _), map_retag_of_off d (childEntries_off fresh' _), ← retagged]
      refine (((entries'.map (under p.key)).append_right _).append_left _ |>.append_left _).trans ?_
      exact (List.perm_middle.append_left _).trans List.perm_middle

/-! ## `Remove` -/

theorem eraseP_append_of_off {α : Type} {p : α → Bool} (l₁ : List α) {l₂ : List α}
    (off : ∀ e ∈ l₂, ¬p e = true) : (l₁ ++ l₂).eraseP p = l₁.eraseP p ++ l₂ := by
  rw [List.eraseP_append]
  split
  · rfl
  · rename_i none
    rw [List.eraseP_of_forall_not off, List.eraseP_of_forall_not (by simpa using none)]

/-- An entry of path `P` and seq `s`. -/
def Hits (P : List Key) (s : UInt64) (e : Entry) : Bool := e.1 = P ∧ e.2.2 = s

theorem hits_off {l : List Entry} {P : List Key} (s : UInt64) (off : ∀ e ∈ l, e.1 ≠ P) :
    ∀ e ∈ l, ¬Hits P s e = true :=
  fun e he h => off e he (by simpa [Hits] using (of_decide_eq_true h).1)

theorem hits_under (k : Key) (P : List Key) (s : UInt64) : Hits (k :: P) s ∘ under k = Hits P s :=
  funext fun e => by simp [Hits, under]

/-- What the descent of `Remove` along path `P` for seq `s` gives from part `n`: a failure when
no entry has path `P`; otherwise a part whose entries are those of `n` less the first of path
`P` and seq `s`, and whether there was one. -/
def RemoveSpec (P : List Key) (s : UInt64) (n : PartNode) : Option (PartNode × Bool) → Prop
  | none => ∀ e ∈ n.entries, e.1 ≠ P
  | some (n', removed) => n'.WF ∧ n'.entries.Perm (n.entries.eraseP (Hits P s)) ∧ removed = n.entries.any (Hits P s)

theorem remove_spec (s : UInt64) : ∀ (parts : List Part) (n : PartNode), n.WF →
    RemoveSpec (parts.map Part.key) s n (n.remove s parts)
  | [], ⟨d, ss, cs⟩, wf => by
    have off : ∀ e ∈ childEntries cs, ¬Hits [] s e = true := hits_off s fun e he => by
      obtain ⟨k, P, he, -⟩ := mem_childEntries he
      simp [he]
    have own : (ss.map (fun x => (([] : List Key), d, x))).eraseP (Hits [] s) = (ss.erase s).map (fun x => ([], d, x)) := by
      rw [List.eraseP_map, List.erase_eq_eraseP]
      congr 2
      funext x
      by_cases same : x = s
      · simp [Hits, same]
      · simp [Hits, same, Ne.symm same]
    obtain ⟨perm, removed⟩ := Ssid.remove_perm ss s
    simp only [PartNode.remove, List.map_nil, RemoveSpec]
    refine ⟨WF_mk.mpr (WF_mk.mp wf), ?_, ?_⟩
    · rw [entries_mk, entries_mk, eraseP_append_of_off _ off, own]
      exact (perm.map _).append_right _
    · rw [entries_mk, List.any_append, List.any_eq_false.mpr off, Bool.or_false, Bool.eq_iff_iff, removed]
      simp [Hits]
  | p :: parts, ⟨d, ss, cs⟩, wf => by
    obtain ⟨nodup, children⟩ := WF_mk.mp wf
    simp only [PartNode.remove]
    rcases found : mapGet cs p.key with _ | c
    · obtain ⟨fresh, -⟩ := mapGet_eq_none found
      dsimp only [RemoveSpec]
      intro e he
      rcases List.mem_append.mp ((entries_mk d ss cs) ▸ he) with h | h
      · exact own_off d ss _ _ e h
      · exact childEntries_off fresh _ e h
    · obtain ⟨before, after, rfl, fresh, set, del⟩ := mapGet_eq_some found
      dsimp only
      have fresh' : p.key ∉ after.map (·.1) := by
        simp only [List.map_append, List.map_cons] at nodup
        exact fun h => (List.nodup_cons.mp (List.nodup_middle.mp nodup)).1 (List.mem_append_right _ h)
      obtain ⟨-, wfc, wfa⟩ := childrenWF_cons.mp (childrenWF_append.mp children).2
      have ih := remove_spec s parts c wfc
      have others (P : List Key) : ∀ e ∈ (ss.map fun x => (([] : List Key), d, x)) ++ childEntries before,
          e.1 ≠ p.key :: P := by
        intro e he
        rcases List.mem_append.mp he with h | h
        · exact own_off d ss _ _ e h
        · exact childEntries_off fresh _ e h
      rcases hc : c.remove s parts with _ | ⟨c', removed⟩
      · simp only [hc, RemoveSpec] at ih ⊢
        intro e he
        simp only [entries_mk, childEntries_append, childEntries_cons, ← List.append_assoc, List.mem_append] at he
        rcases he with (h | h) | h
        · exact others _ e (List.mem_append.mpr h)
        · obtain ⟨e', he', rfl⟩ := List.mem_map.mp h
          exact fun same => ih e' he' (List.cons.inj same).2
        · exact childEntries_off fresh' _ e h
      · simp only [hc, RemoveSpec] at ih ⊢
        obtain ⟨wf', perm, hit⟩ := ih
        obtain ⟨kidsWF, kidsEntries⟩ : (⟨d, ss, if c'.Bare then mapDelete (before ++ (p.key, c) :: after) p.key
              else mapSet (before ++ (p.key, c) :: after) p.key c'⟩ : PartNode).WF ∧
            (⟨d, ss, if c'.Bare then mapDelete (before ++ (p.key, c) :: after) p.key
              else mapSet (before ++ (p.key, c) :: after) p.key c'⟩ : PartNode).entries =
              (ss.map fun x => ([], d, x)) ++ childEntries before ++ c'.entries.map (under p.key) ++
                childEntries after := by
          split
          · rename_i bare
            rw [del]
            refine ⟨WF_mk.mpr ⟨?_, childrenWF_append.mpr ⟨(childrenWF_append.mp children).1, wfa⟩⟩, by
              simp [entries_of_bare bare]⟩
            simp only [List.map_append, List.map_cons] at nodup ⊢
            exact (List.nodup_cons.mp (List.nodup_middle.mp nodup)).2
          · rename_i bare
            rw [set]
            refine ⟨WF_mk.mpr ⟨by simpa using nodup, childrenWF_append.mpr ⟨(childrenWF_append.mp children).1,
              childrenWF_cons.mpr ⟨by simpa using bare, wf', wfa⟩⟩⟩, by simp⟩
        have split : (⟨d, ss, before ++ (p.key, c) :: after⟩ : PartNode).entries =
            (ss.map fun x => ([], d, x)) ++ childEntries before ++ c.entries.map (under p.key) ++
              childEntries after := by simp
        refine ⟨kidsWF, ?_, ?_⟩
        · rw [kidsEntries, split, List.map_cons, eraseP_append_of_off _ (hits_off s (childEntries_off fresh' _)),
            List.eraseP_append_right _ (hits_off s (others _)), List.eraseP_map, hits_under]
          exact (perm.map _).append_left _ |>.append_right _
        · rw [split, List.map_cons, List.any_append, List.any_append, List.any_eq_false.mpr (hits_off s (others _)),
            List.any_eq_false.mpr (hits_off s (childEntries_off fresh' _)), List.any_map, hits_under, hit]
          simp

/-! ## `Lookup` -/

/-- Whether the keys `P` consume a prefix of the query `q`: each key needs the query of the next
part and at least `wildchars + 1` parts left, and consumes that many. -/
def Consumes : List Key → List Part → Bool
  | [], _ => true
  | _ :: _, [] => false
  | k :: P, p :: q =>
    k.query == p.query && decide (k.wildchars.toNat + 1 ≤ q.length + 1) &&
      Consumes P ((p :: q).drop (k.wildchars.toNat + 1))

theorem toNat_add_one {w : UInt8} (wide : w < 255) : (w + 1).toNat = w.toNat + 1 := by
  rw [UInt8.lt_def] at wide
  show (w.toBitVec + 1).toNat = w.toBitVec.toNat + 1
  have : (255 : UInt8).toBitVec = 255#8 := rfl
  rw [this] at wide
  bv_omega

theorem toNat_toUInt8 {n : Nat} (short : n < 256) : n.toUInt8.toNat = n :=
  UInt8.toBitVec_eq_of_lt short

/-- `ilookup`'s test on a key, in numbers, for a query shorter than 256 parts and a key with
fewer than 255 wildchars. -/
theorem guard_iff {w : UInt8} {n : Nat} (wide : w < 255) (short : n < 256) :
    w + 1 ≤ n.toUInt8 ↔ w.toNat + 1 ≤ n := by
  rw [UInt8.le_def, BitVec.le_def]
  show (w + 1).toNat ≤ n.toUInt8.toNat ↔ _
  rw [toNat_add_one wide, toNat_toUInt8 short]

section Lookup
variable (topicMaxDepth depth : UInt8)

/-- What `ilookup` keeps of an entry, for query `q` of depth `depth`. -/
def Found (q : List Part) (e : Entry) : Bool :=
  Consumes e.1 q && decide (MatchesDepth topicMaxDepth e.2.1 depth)

/-- No key above an entry has 255 wildchars. -/
def Narrow (l : List Entry) : Prop := ∀ e ∈ l, ∀ k ∈ e.1, k.wildchars < 255

mutual
theorem ilookup_eq : ∀ (n : PartNode) (q : List Part), q.length < 256 → Narrow n.entries →
    n.ilookup topicMaxDepth q depth = (n.entries.filter (Found topicMaxDepth depth q)).map (·.2.2)
  | ⟨d, ss, cs⟩, q, short, narrow => by
    have own : ((ss.map fun s => (([] : List Key), d, s)).filter (Found topicMaxDepth depth q)).map (·.2.2) =
        if MatchesDepth topicMaxDepth d depth then ss else [] := by
      by_cases h : MatchesDepth topicMaxDepth d depth <;> simp [Found, Consumes, h, List.filter_map, Function.comp_def]
    rw [PartNode.ilookup.eq_def]
    dsimp only
    rw [entries_mk, List.filter_append, List.map_append, own]
    congr 1
    cases q with
    | nil =>
      have none : (childEntries cs).filter (Found topicMaxDepth depth []) = [] :=
        List.filter_eq_nil_iff.mpr fun e he => by
          obtain ⟨k, P, he, -⟩ := mem_childEntries he
          simp [Found, he, Consumes]
      rw [none]
      rfl
    | cons first rest =>
      exact ilookupChildren_eq cs first rest short fun e he => narrow e (List.mem_append_right _ he)

theorem ilookupChildren_eq : ∀ (cs : List (Key × PartNode)) (first : Part) (rest : List Part),
    rest.length + 1 < 256 → Narrow (childEntries cs) →
    ilookupChildren topicMaxDepth (first :: rest) depth first cs =
      ((childEntries cs).filter (Found topicMaxDepth depth (first :: rest))).map (·.2.2)
  | [], _, _, _, _ => by simp [ilookupChildren]
  | (k, c) :: cs, first, rest, short, narrow => by
    rw [childEntries_cons] at narrow
    rw [ilookupChildren, childEntries_cons, List.filter_append, List.map_append,
      ilookupChildren_eq cs first rest short fun e he => narrow e (List.mem_append_right _ he),
      List.filter_map, List.map_map]
    congr 1
    have narrow' : Narrow c.entries := fun e he k' hk' =>
      narrow (under k e) (List.mem_append_left _ (List.mem_map_of_mem _ he)) k' (List.mem_cons_of_mem _ hk')
    by_cases wide : k.wildchars < 255
    · have found (e : Entry) : (Found topicMaxDepth depth (first :: rest) ∘ under k) e =
          ((k.query == first.query && decide (k.wildchars.toNat + 1 ≤ rest.length + 1)) &&
            Found topicMaxDepth depth ((first :: rest).drop (k.wildchars.toNat + 1)) e) := by
        simp only [Function.comp, Found, under, Consumes, Bool.and_assoc]
      simp only [List.length_cons, guard_iff wide short, toNat_add_one wide]
      split
      · rename_i guard
        rw [ilookup_eq c _ ((List.length_drop _ _).trans_lt (by simp only [List.length_cons]; omega)) narrow']
        simp only [List.filter_congr fun e _ => found e, guard.1, beq_self_eq_true, guard.2, decide_True,
          Bool.true_and]
        rfl
      · rename_i guard
        have none : c.entries.filter (Found topicMaxDepth depth (first :: rest) ∘ under k) = [] :=
          List.filter_eq_nil_iff.mpr fun e _ => by
            rw [found]
            simp only [Bool.and_eq_true, beq_iff_eq, decide_eq_true_eq] at guard ⊢
            tauto
        rw [none]
        rfl
    · have empty : c.entries = [] := List.eq_nil_iff_forall_not_mem.mpr fun e he =>
        wide (narrow (under k e) (List.mem_append_left _ (List.mem_map_of_mem _ he)) k (List.mem_cons_self _ _))
      have none (q : List Part) (short : q.length < 256) : c.ilookup topicMaxDepth q depth = [] := by
        rw [ilookup_eq c q short narrow', empty]
        rfl
      rw [empty, none _ ((List.length_drop _ _).trans_lt (by simp only [List.length_cons]; omega))]
      simp
end

end Lookup

end UnitDB.Source.TopicTrie
