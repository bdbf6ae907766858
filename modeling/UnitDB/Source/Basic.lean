import Mathlib.Algebra.Order.Ring.Nat
import Mathlib.Algebra.Group.Int
import Mathlib.Data.List.Basic

/-!
# Bytes, little-endian words, topic parts and error values

Shared vocabulary of the unitdb core. Byte slices are lists of octets; a Go slice
expression `s[lo:hi]` is `slice s lo hi`, which is `none` where Go panics. Go may
read a slice's spare capacity past its length; the model treats every read past
the length as a panic. Error values are named after the Go variables that hold
them (`errTopicEmpty` is `Error.topicEmpty`); their texts live in files that are not
part of the sources and are not modelled. Errors of external collaborators (file
I/O, the memtable, the WAL) carry an opaque code.
-/

namespace UnitDB.Source

abbrev Bytes := List UInt8

/-- `binary.LittleEndian.PutUint32` applied to `uint32(n)`. -/
def putUint32 (n : Nat) : Bytes :=
  [(n % 256).toUInt8, (n / 256 % 256).toUInt8, (n / 65536 % 256).toUInt8,
    (n / 16777216 % 256).toUInt8]

/-- `binary.LittleEndian.Uint32`: the first four octets, least significant first. -/
def readUint32 : Bytes → Nat
  | b0 :: b1 :: b2 :: b3 :: _ => b0.toNat + 256 * (b1.toNat + 256 * (b2.toNat + 256 * b3.toNat))
  | _ => 0

@[simp] theorem putUint32_length (n : Nat) : (putUint32 n).length = 4 := rfl

/-- The little-endian word reads back as `n mod 2^32`, whatever follows it. -/
theorem readUint32_putUint32 (n : Nat) (rest : Bytes) :
    readUint32 (putUint32 n ++ rest) = n % 2 ^ 32 := by
  simp only [putUint32, readUint32, List.cons_append, Nat.toUInt8, UInt8.toNat, UInt8.ofNat]
  simp [Fin.ofNat]
  omega

@[simp] theorem readUint32_putUint32_self (n : Nat) : readUint32 (putUint32 n) = n % 2 ^ 32 := by
  simpa using readUint32_putUint32 n []

/-- `binary.LittleEndian.PutUint64` applied to `uint64(n)`: the low word, then the high word. -/
def putUint64 (n : Nat) : Bytes := putUint32 n ++ putUint32 (n / 2 ^ 32)

/-- `binary.LittleEndian.Uint64`. -/
def readUint64 (b : Bytes) : Nat := readUint32 b + 2 ^ 32 * readUint32 (b.drop 4)

@[simp] theorem putUint64_length (n : Nat) : (putUint64 n).length = 8 := rfl

theorem readUint64_putUint64 (n : Nat) (rest : Bytes) :
    readUint64 (putUint64 n ++ rest) = n % 2 ^ 64 := by
  have high : (putUint64 n ++ rest).drop 4 = putUint32 (n / 2 ^ 32) ++ rest := by
    simp [putUint64, List.drop_append_of_le_length]
  rw [readUint64, high, putUint64, List.append_assoc, readUint32_putUint32, readUint32_putUint32]
  omega

/-- Go's `s[lo:hi]`; `none` where Go panics with an out-of-range slice. -/
def slice (s : Bytes) (lo hi : Nat) : Option Bytes :=
  if lo ≤ hi ∧ hi ≤ s.length then some ((s.drop lo).take (hi - lo)) else none

/-- A slice inside the middle piece of a buffer reads that piece only. -/
theorem slice_eq {buf pre s rest : Bytes} {a b i j : Nat} (hbuf : buf = pre ++ s ++ rest)
    (ha : a = pre.length + i) (hb : b = pre.length + j) (h : i ≤ j) (hs : j ≤ s.length) :
    slice buf a b = some ((s.drop i).take (j - i)) := by
  subst hbuf ha hb
  have hlen : pre.length + j ≤ (pre ++ s ++ rest).length := by simp; omega
  rw [slice, if_pos ⟨by omega, hlen⟩, List.append_assoc, List.drop_append, Nat.add_sub_add_left,
    List.drop_append_of_le_length (by omega), List.take_append_of_le_length (by simp; omega)]

theorem slice_append_left {a b : Bytes} {lo hi : Nat} (h : hi ≤ a.length) :
    slice (a ++ b) lo hi = slice a lo hi := by
  unfold slice
  by_cases c : lo ≤ hi
  · rw [if_pos ⟨c, by simp; omega⟩, if_pos ⟨c, h⟩, List.drop_append_of_le_length (by omega),
      List.take_append_of_le_length (by simp; omega)]
  · rw [if_neg (by omega), if_neg (by omega)]

theorem slice_append_right {a b : Bytes} {lo hi : Nat} (h : a.length ≤ lo) (c : lo ≤ hi) :
    slice (a ++ b) lo hi = slice b (lo - a.length) (hi - a.length) := by
  unfold slice
  rw [List.drop_append_eq_append_drop, List.drop_eq_nil_of_le h, List.nil_append]
  congr 1
  · simp only [List.length_append, eq_iff_iff]; omega
  · congr 2; omega

theorem slice_full {s : Bytes} {n : Nat} (h : s.length = n) : slice s 0 n = some s := by
  simp [slice, ← h]

/-- `message.Part`: one parsed topic component. -/
structure Part where
  query : UInt32
  wildchars : UInt8
  deriving DecidableEq, Repr

/-- The error values the modelled functions return. -/
inductive Error where
  | topicEmpty | topicTooLarge | valueEmpty | valueTooLarge
  | immutable | msgIdEmpty | msgIdDeleted | entryInvalid
  | closed | full | corrupted
  /-- `errors.New(text)` in the source. -/
  | msg (text : String)
  /-- An error produced by a collaborator outside the sources. -/
  | io (code : Nat)
  deriving DecidableEq, Repr

/-- How a Go call that returns an `error` ends: `nil`, an error value, or a run-time
panic (an out-of-range slice). -/
inductive Outcome where
  | ok
  | error (e : Error)
  | panic
  deriving DecidableEq, Repr

/-! ## Go maps

A Go map as an association list: `mapGet`, `mapSet` and `mapDelete` act on the first entry
of a key, and `mapSet` of a key the map lacks appends it. -/

section Map
variable {α β : Type} [DecidableEq α]

/-- `v, ok := m[k]`. -/
def mapGet : List (α × β) → α → Option β
  | [], _ => none
  | (k', v) :: rest, k => if k' = k then some v else mapGet rest k

/-- `m[k] = v`: the value of a present key is replaced where it stands. -/
def mapSet : List (α × β) → α → β → List (α × β)
  | [], k, v => [(k, v)]
  | (k', v') :: rest, k, v => if k' = k then (k, v) :: rest else (k', v') :: mapSet rest k v

/-- `delete(m, k)`. -/
def mapDelete : List (α × β) → α → List (α × β)
  | [], _ => []
  | (k', v) :: rest, k => if k' = k then rest else (k', v) :: mapDelete rest k

/-- A key a map holds stands at one place, after no other entry of that key. -/
theorem mapGet_eq_some {m : List (α × β)} {k : α} {v : β} (h : mapGet m k = some v) :
    ∃ before after, m = before ++ (k, v) :: after ∧ k ∉ before.map (·.1) ∧
      (∀ v', mapSet m k v' = before ++ (k, v') :: after) ∧ mapDelete m k = before ++ after := by
  induction m with
  | nil => cases h
  | cons e rest ih =>
    obtain ⟨k', v'⟩ := e
    by_cases same : k' = k
    · subst same
      simp only [mapGet, if_true, Option.some.injEq] at h
      subst h
      exact ⟨[], rest, rfl, List.not_mem_nil _, fun _ => by simp [mapSet], by simp [mapDelete]⟩
    · simp only [mapGet, same, if_false] at h
      obtain ⟨before, after, rfl, fresh, set, del⟩ := ih h
      refine ⟨(k', v') :: before, after, rfl, ?_, fun v'' => ?_, ?_⟩
      · simp [fresh, Ne.symm same]
      · simp [mapSet, same, set]
      · simp [mapDelete, same, del]

/-- A key a map lacks is added at the end. -/
theorem mapGet_eq_none {m : List (α × β)} {k : α} (h : mapGet m k = none) :
    k ∉ m.map (·.1) ∧ ∀ v, mapSet m k v = m ++ [(k, v)] := by
  induction m with
  | nil => exact ⟨List.not_mem_nil _, fun _ => rfl⟩
  | cons e rest ih =>
    obtain ⟨k', v'⟩ := e
    by_cases same : k' = k
    · simp [mapGet, same] at h
    · simp only [mapGet, same, if_false] at h
      obtain ⟨fresh, set⟩ := ih h
      exact ⟨by simp [fresh, Ne.symm same], fun v => by simp [mapSet, same, set]⟩


@[simp] theorem mapGet_mapSet_self (m : List (α × β)) (k : α) (v : β) : mapGet (mapSet m k v) k = some v := by
  induction m with
  | nil => simp [mapSet, mapGet]
  | cons e rest ih =>
    by_cases same : e.1 = k
    · simp [mapSet, mapGet, same]
    · simp [mapSet, mapGet, same, ih]

theorem mapGet_mapSet_ne (m : List (α × β)) {k k' : α} (v : β) (ne : k ≠ k') :
    mapGet (mapSet m k v) k' = mapGet m k' := by
  induction m with
  | nil => simp [mapSet, mapGet, ne]
  | cons e rest ih =>
    obtain ⟨k'', v''⟩ := e
    by_cases same : k'' = k
    · subst same
      simp [mapSet, mapGet, ne]
    · simp [mapSet, mapGet, same, ih]

theorem mapGet_mem {m : List (α × β)} {k : α} {v : β} (h : mapGet m k = some v) : (k, v) ∈ m := by
  obtain ⟨before, after, rfl, -⟩ := mapGet_eq_some h
  simp

/-- Setting a key to the value it holds leaves the map as it was. -/
theorem mapSet_of_mapGet {m : List (α × β)} {k : α} {v : β} (h : mapGet m k = some v) : mapSet m k v = m := by
  obtain ⟨before, after, rfl, -, set, -⟩ := mapGet_eq_some h
  exact set v

theorem mapDelete_sublist (m : List (α × β)) (k : α) : (mapDelete m k).Sublist m := by
  induction m with
  | nil => exact List.Sublist.slnil
  | cons x rest ih =>
    simp only [mapDelete]
    split
    · exact List.sublist_cons_self _ _
    · exact ih.cons₂ _

/-- In a map with distinct keys, `delete` drops exactly the entry of the key. -/
theorem mem_mapDelete {m : List (α × β)} (nd : (m.map (·.1)).Nodup) (k : α) (e : α × β) :
    e ∈ mapDelete m k ↔ e ∈ m ∧ e.1 ≠ k := by
  induction m with
  | nil => simp [mapDelete]
  | cons x rest ih =>
    obtain ⟨k', v⟩ := x
    rw [List.map_cons, List.nodup_cons] at nd
    by_cases same : k' = k
    · subst same
      simp only [mapDelete, if_true, List.mem_cons]
      refine ⟨fun h => ⟨.inr h, fun he => nd.1 (List.mem_map.mpr ⟨e, h, he⟩)⟩, ?_⟩
      rintro ⟨rfl | h, ne⟩
      · exact absurd rfl ne
      · exact h
    · simp only [mapDelete, same, if_false, List.mem_cons, ih nd.2]
      constructor
      · rintro (rfl | ⟨h, ne⟩)
        · exact ⟨.inl rfl, same⟩
        · exact ⟨.inr h, ne⟩
      · rintro ⟨rfl | h, ne⟩
        · exact .inl rfl
        · exact .inr ⟨h, ne⟩

theorem mapSet_isEmpty (m : List (α × β)) (k : α) (v : β) : (mapSet m k v).isEmpty = false :=
  match m with
  | [] => rfl
  | (k', _) :: _ => by simp only [mapSet]; split <;> rfl

end Map

end UnitDB.Source
