import UnitDB.Source.WriteBatch

/-!
# The batch buffer's frames: what `PutEntry` writes is what `writeInternal` reads

`PutEntry` and `DeleteEntry` write each entry they accept into the batch buffer as a frame (the
4-octet length word `len(data) + 4`, then the packed entry) and index it at the batch's `size`
(batch.go:117-135, 173-191); `writeInternal` finds each pending write's entry by slicing the buffer
at its indexed offset (batch.go:205-209). The two meet at `Framed`: the buffer is the frames of the
accepted entries one after another, entry `k` of the index starts frame `k`, and `size` is the
buffer's length.

* `Framed.decode`: in a framed batch every index entry decodes to its own accepted entry;
* `apply_framed`: a call keeps the batch framed and appends the entry it packed when it returns
  `nil`, provided the pool buffer does not refuse a packed entry right after granting its length
  word (`NoTornFrame`): otherwise the word stays in the buffer, `size` falls behind it, and every
  later frame is indexed four octets before the octets written for it;
* `run_decodes_accepted`: over every run of `PutEntry` and `DeleteEntry` calls, the index holds one
  entry per call that returned `nil`, in call order, with its tombstone flag and dedup key, and
  `writeInternal` decodes each to the entry that call packed.

`Reset` breaks `Framed` the other way round, by keeping the buffer's octets while zeroing `size`
(`BatchWrite`).
-/

set_option autoImplicit false

namespace UnitDB.Guarantees.BatchFrames
open UnitDB.Source UnitDB.Source.WriteBatch

/-- An entry the batch accepted: whether it is a tombstone, its dedup key and its packed octets. -/
structure Accepted where
  delFlag : Bool
  key : UInt32
  data : Bytes
  deriving DecidableEq, Repr

/-- The frames of `log`, one after another. -/
def frames (log : List Accepted) : Bytes := (log.map fun a => frame a.data).flatten

@[simp] theorem frames_nil : frames [] = [] := rfl

@[simp] theorem frames_cons (a : Accepted) (log : List Accepted) :
    frames (a :: log) = frame a.data ++ frames log := rfl

@[simp] theorem frames_append (l₁ l₂ : List Accepted) : frames (l₁ ++ l₂) = frames l₁ ++ frames l₂ := by
  simp [frames]

/-- The index entries of the frames of `log` laid out from offset `off`. -/
def frameIndex : Nat → List Accepted → List BatchIndex
  | _, [] => []
  | off, a :: log => ⟨a.delFlag, a.key, off⟩ :: frameIndex (off + (frame a.data).length) log

theorem frameIndex_append (l₁ l₂ : List Accepted) : ∀ off,
    frameIndex off (l₁ ++ l₂) = frameIndex off l₁ ++ frameIndex (off + (frames l₁).length) l₂ := by
  induction l₁ with
  | nil => intro off; rfl
  | cons a l₁ ih => intro off; simp [frameIndex, ih, Nat.add_assoc]

theorem frameIndex_keys (log : List Accepted) : ∀ off,
    (frameIndex off log).map (fun i => (i.delFlag, i.key)) = log.map fun a => (a.delFlag, a.key) := by
  induction log with
  | nil => intro; rfl
  | cons a log ih => intro off; simp [frameIndex, ih]

/-- Frames laid out `k` octets further along are indexed `k` further along. -/
theorem frameIndex_shift (log : List Accepted) : ∀ off k,
    frameIndex (off + k) log = (frameIndex off log).map fun i => { i with offset := i.offset + k } := by
  induction log with
  | nil => intros; rfl
  | cons a log ih => intro off k; simp [frameIndex, ← ih, Nat.add_right_comm]

/-- The layout `PutEntry` and `DeleteEntry` build and `writeInternal` reads: the buffer holds
exactly the frames of `log`, each indexed where it starts, and `size` is the buffer's length. -/
structure Framed (b : Batch) (log : List Accepted) : Prop where
  buffer : b.buffer = frames log
  index : b.index = frameIndex 0 log
  size : b.size = b.buffer.length

/-- The successful tail of `PutEntry` and `DeleteEntry`, as `appendFrame_ok` states it, appends
one frame. -/
theorem Framed.append {b : Batch} {log : List Accepted} (h : Framed b log) (a : Accepted) :
    Framed { b with buffer := b.buffer ++ frame a.data, index := b.index ++ [⟨a.delFlag, a.key, b.size⟩],
                    size := b.size + (frame a.data).length, entryCount := b.entryCount + 1 } (log ++ [a]) :=
  ⟨by simp [h.buffer], by simp [h.index, h.size, h.buffer, frameIndex_append, frameIndex], by simp [h.size]⟩

/-! ## Decoding -/

section Decode
variable (d : Decoder)

/-- A packed entry `writeInternal` can read back from its frame: at least an entry header long,
and short enough for its length word. -/
def Fits (data : Bytes) : Prop := d.entrySize ≤ data.length ∧ data.length + 4 < 2 ^ 32

/-- What `writeInternal` decodes from the frame of `data`: the unmarshalled header, and the packed
entry. -/
def decoded (data : Bytes) : Option (Except Error (EntryHeader × Bytes)) :=
  some ((d.unmarshal (data.take d.entrySize)).map fun h => (h, data))

theorem frameIndex_decode (log : List Accepted) (fits : ∀ a ∈ log, Fits d a.data) :
    ∀ pre, (frameIndex pre.length log).map (d.decodeFrame (pre ++ frames log)) =
      log.map fun a => decoded d a.data := by
  induction log with
  | nil => intro; rfl
  | cons a log ih =>
    intro pre
    have fa := fits a (List.mem_cons_self a log)
    have rest := ih (fun x m => fits x (List.mem_cons_of_mem a m)) (pre ++ frame a.data)
    simp only [List.append_assoc, List.length_append] at rest
    simp only [frameIndex, frames_cons, List.map_cons, rest, decodeFrame_frame d pre a.data (frames log)
      (⟨a.delFlag, a.key, pre.length⟩ : BatchIndex) (List.append_assoc _ _ _).symm rfl fa.2 fa.1]
    rfl

/-- In a framed batch, every index entry decodes to its own accepted entry. -/
theorem Framed.decode {b : Batch} {log : List Accepted} (h : Framed b log) (fits : ∀ a ∈ log, Fits d a.data) :
    b.index.map (d.decodeFrame b.buffer) = log.map fun a => decoded d a.data := by
  rw [h.index, h.buffer]
  exact frameIndex_decode d log fits []

end Decode

/-! ## Calls -/

/-- A call a client makes on a batch. -/
inductive BatchCall where
  | put (e : Entry)
  | delete (e : Entry)
  deriving DecidableEq, Repr

section Calls
variable {Topic : Type} (c : Collaborators Topic)

/-- `PutEntry` or `DeleteEntry`. -/
def apply (b : Batch) : BatchCall → Batch × Option Error
  | .put e => b.putEntry c e
  | .delete e => b.deleteEntry c e

/-- A run of calls: each goes on from the batch the one before left, and returns its error. -/
def run (b : Batch) : List BatchCall → Batch × List (Option Error)
  | [] => (b, [])
  | call :: rest => ((run (apply c b call).1 rest).1, (apply c b call).2 :: (run (apply c b call).1 rest).2)

/-- The entry a call packs when its checks pass and `packEntry` succeeds: a put's is not a
tombstone, a delete's is; both carry the call's dedup key. -/
def accepts (b : Batch) : BatchCall → Option Accepted
  | .put e =>
    match b.preparePut c e with
    | .ok (_, e', key) => (c.packEntry e').toOption.map fun data => ⟨false, key, data⟩
    | .error _ => none
  | .delete e =>
    match b.prepareDelete c e with
    | .ok (e', key) => (c.packEntry e').toOption.map fun data => ⟨true, key, data⟩
    | .error _ => none

/-- The entries of the calls of a run that returned `nil`, each as the call packed it. -/
def acceptedLog (b : Batch) : List BatchCall → List Accepted
  | [] => []
  | call :: rest =>
    (if (apply c b call).2.isNone then accepts c b call else none).toList ++ acceptedLog (apply c b call).1 rest

/-- The pool buffer never refuses a packed entry right after granting its length word. -/
def NoTornFrame : Prop := ∀ n m, c.allocates n 4 = true → c.allocates (n + 4) m = true

/-- Under `NoTornFrame`, a frame append that fails has written nothing. -/
theorem appendFrame_error_same (noTorn : NoTornFrame c) {b : Batch} {e : Entry} {delFlag : Bool}
    {key : UInt32} {err : Error} (h : (b.appendFrame c e delFlag key).2 = some err) :
    (b.appendFrame c e delFlag key).1 = b := by
  unfold Batch.appendFrame at h ⊢
  rcases hp : c.packEntry e with _ | data
  · rfl
  · simp only [hp, Collaborators.bufferWrite] at h ⊢
    by_cases h1 : c.allocates b.buffer.length 4
    · simp [h1, noTorn _ _ h1] at h
    · simp [h1]

theorem appendFrame_framed (noTorn : NoTornFrame c) {b : Batch} {log : List Accepted} (h : Framed b log)
    (e : Entry) (delFlag : Bool) (key : UInt32) :
    Framed (b.appendFrame c e delFlag key).1
      (log ++ (if (b.appendFrame c e delFlag key).2.isNone then
        (c.packEntry e).toOption.map fun data => ⟨delFlag, key, data⟩ else none).toList) := by
  rcases hr : (b.appendFrame c e delFlag key).2 with _ | err
  · obtain ⟨data, hp, heq⟩ := appendFrame_ok c hr
    rw [heq, hp]
    exact h.append ⟨delFlag, key, data⟩
  · rw [appendFrame_error_same c noTorn hr]
    simpa using h

/-- One call keeps the batch framed, appending the entry it packed when it returns `nil`. -/
theorem apply_framed (noTorn : NoTornFrame c) {b : Batch} {log : List Accepted} (h : Framed b log)
    (call : BatchCall) :
    Framed (apply c b call).1 (log ++ (if (apply c b call).2.isNone then accepts c b call else none).toList) := by
  cases call with
  | put e =>
    simp only [apply, accepts, Batch.putEntry]
    rcases hp : b.preparePut c e with err | ⟨b', e', key⟩
    · simpa using h
    · have h' : Framed b' log := by rw [preparePut_frame c hp]; exact ⟨h.1, h.2, h.3⟩
      exact appendFrame_framed c noTorn h' e' false key
  | delete e =>
    simp only [apply, accepts, Batch.deleteEntry]
    rcases hp : b.prepareDelete c e with err | ⟨e', key⟩
    · simpa using h
    · exact appendFrame_framed c noTorn h e' true key

theorem run_framed (noTorn : NoTornFrame c) :
    ∀ (calls : List BatchCall) {b : Batch} {log : List Accepted}, Framed b log →
      Framed (run c b calls).1 (log ++ acceptedLog c b calls)
  | [], _, _, h => by simpa [run, acceptedLog] using h
  | call :: rest, _, _, h => by
    simpa [run, acceptedLog] using run_framed noTorn rest (apply_framed c noTorn h call)

/-- Every entry a call accepts is an output of `packEntry`. -/
theorem accepts_packed {b : Batch} {call : BatchCall} {a : Accepted} (h : accepts c b call = some a) :
    ∃ e, c.packEntry e = .ok a.data := by
  have packed : ∀ {e : Entry} {f : Bytes → Accepted}, (∀ data, (f data).data = data) →
      (c.packEntry e).toOption.map f = some a → ∃ e, c.packEntry e = .ok a.data := by
    intro e f hf h
    rcases hq : c.packEntry e with _ | data <;> simp only [hq, Except.toOption, Option.map] at h <;> cases h
    exact ⟨e, by rw [hq, hf]⟩
  -- a put and a delete differ only in the tombstone flag of what they pack
  cases call <;> simp only [accepts] at h <;> split at h <;> first | exact packed (fun _ => rfl) h | cases h

theorem acceptedLog_packed : ∀ (calls : List BatchCall) {b : Batch}, ∀ a ∈ acceptedLog c b calls,
    ∃ e, c.packEntry e = .ok a.data
  | [], _, _, m => by cases m
  | call :: rest, b, a, m => by
    simp only [acceptedLog, List.mem_append] at m
    rcases m with m | m
    · split at m
      · exact accepts_packed c (Option.mem_toList.mp m)
      · cases m
    · exact acceptedLog_packed rest a m

/-- Over every run of `PutEntry` and `DeleteEntry` calls from a framed batch, the index holds the
entries before the run and then one entry per call that returned `nil`, in call order, with its
tombstone flag and dedup key; `size` is the buffer's length; and `writeInternal` decodes every index
entry to the entry its call packed. It needs every packed entry to fit its frame, and the pool
buffer never to refuse a packed entry after granting its length word. -/
theorem run_decodes_accepted (d : Decoder) (calls : List BatchCall) {b : Batch} {log : List Accepted}
    (framed : Framed b log) (fitsLog : ∀ a ∈ log, Fits d a.data)
    (fits : ∀ e data, c.packEntry e = .ok data → Fits d data) (noTorn : NoTornFrame c) :
    (run c b calls).1.size = (run c b calls).1.buffer.length ∧
      (run c b calls).1.index.map (fun i => (i.delFlag, i.key)) =
        (log ++ acceptedLog c b calls).map (fun a => (a.delFlag, a.key)) ∧
      (run c b calls).1.index.map (d.decodeFrame (run c b calls).1.buffer) =
        (log ++ acceptedLog c b calls).map fun a => decoded d a.data := by
  have h := run_framed c noTorn calls framed
  refine ⟨h.size, by rw [h.index, frameIndex_keys], h.decode d ?_⟩
  intro a m
  rcases List.mem_append.mp m with m | m
  · exact fitsLog a m
  · obtain ⟨e, he⟩ := acceptedLog_packed c calls a m
    exact fits e a.data he

/-- `append` of a batch with pending writes, when the pool grants the write, gives the framed
batch of both logs: the merged offsets, shifted by `b.size`, point at the copied frames. A batch
with no pending writes, such as one whose `Write` has not yet run `uniq`, is not merged at all,
whatever its index holds. -/
theorem append_frames {b new : Batch} {P Q : List Accepted} (hb : Framed b P) (hn : Framed new Q) :
    (new.pendingWrites = [] → b.append c new = b) ∧
      (new.pendingWrites ≠ [] → c.allocates b.buffer.length new.buffer.length = true →
        Framed (b.append c new) (P ++ Q)) := by
  refine ⟨fun none => by simp [Batch.append, none], fun pending grants => ?_⟩
  simp only [Batch.append, List.length_eq_zero, pending, if_false, Collaborators.bufferWrite, grants, if_true]
  refine ⟨by simp [hb.buffer, hn.buffer], ?_, by simp [hb.size, hn.size, hb.buffer, hn.buffer]⟩
  rw [hb.index, hn.index, hb.size, hb.buffer, frameIndex_append, ← frameIndex_shift]

end Calls

/-! ## A concrete run -/

/-- Collaborators whose `packEntry` packs the seq octet before at most seven octets of the value,
so every packed entry fits its frame, and whose pool buffer grants every write. -/
def boundedCollaborators : Collaborators Unit where
  maxTopicLength := 65535
  maxValueLength := 1024
  masterContract := 1
  parseTopic := fun _ _ => .ok ((), 0)
  addContract := fun t _ => t
  getHash := fun _ _ => 7
  marshal := fun _ => [7]
  getHashCode := fun _ => 0
  unmarshal := fun _ => ⟨[⟨7, 0⟩], 0⟩
  setEntry := fun e _ => .ok { e with seq := (e.payload.headD 0).toUInt64, val := e.payload }
  idWithContract := fun id _ => id
  idSequence := fun id => (id.headD 0).toUInt64
  packEntry := fun e => .ok (e.seq.toUInt8 :: e.val.take 7)
  withSalt := fun v _ => (v.headD 0).toUInt32
  allocates := fun _ _ => true
  allocError := .io 0

/-- A one-octet header holding the seq, topic hash 7. -/
def seqDecoder : Decoder := ⟨1, fun bs => .ok ⟨(bs.headD 0).toUInt64, 7, 0⟩⟩

def emptyBatch : Batch := ⟨⟨0, false, false, false⟩, false, 0, [], 0, [], [], []⟩

/-- Two puts, a delete and a put with an empty payload, which fails. -/
def sampleCalls : List BatchCall :=
  [.put ⟨[], [0x74], [1], 0, 0, [], 0, false, [], 0, [], 0⟩, .put ⟨[], [0x74], [2, 3], 0, 0, [], 0, false, [], 0, [], 0⟩,
    .delete ⟨[9], [0x74], [], 0, 0, [], 0, false, [], 0, [], 0⟩, .put ⟨[], [0x74], [], 0, 0, [], 0, false, [], 0, [], 0⟩]

theorem run_decodes_accepted_sample :
    Framed emptyBatch [] ∧ (∀ a ∈ ([] : List Accepted), Fits seqDecoder a.data) ∧
      (∀ e data, boundedCollaborators.packEntry e = .ok data → Fits seqDecoder data) ∧
      NoTornFrame boundedCollaborators ∧
      (run boundedCollaborators emptyBatch sampleCalls).1.size =
          (run boundedCollaborators emptyBatch sampleCalls).1.buffer.length ∧
        (run boundedCollaborators emptyBatch sampleCalls).1.index.map (fun i => (i.delFlag, i.key)) =
          (([] : List Accepted) ++ acceptedLog boundedCollaborators emptyBatch sampleCalls).map (fun a => (a.delFlag, a.key)) ∧
        (run boundedCollaborators emptyBatch sampleCalls).1.index.map
            (seqDecoder.decodeFrame (run boundedCollaborators emptyBatch sampleCalls).1.buffer) =
          (([] : List Accepted) ++ acceptedLog boundedCollaborators emptyBatch sampleCalls).map fun a => decoded seqDecoder a.data :=
  have framed : Framed emptyBatch [] := ⟨rfl, rfl, rfl⟩
  have fitsLog : ∀ a ∈ ([] : List Accepted), Fits seqDecoder a.data := fun _ m => by cases m
  have fits : ∀ e data, boundedCollaborators.packEntry e = .ok data → Fits seqDecoder data := by
    intro e data h
    cases h
    refine ⟨by simp [seqDecoder], ?_⟩
    have := List.length_take_le 7 e.val
    simp only [List.length_cons]
    omega
  have noTorn : NoTornFrame boundedCollaborators := fun _ _ _ => rfl
  ⟨framed, fitsLog, fits, noTorn, run_decodes_accepted boundedCollaborators seqDecoder sampleCalls framed fitsLog fits noTorn⟩

/-- A batch of one delete after `uniq` has set its pending writes. -/
def deleteBatch : Batch :=
  (run boundedCollaborators emptyBatch [.delete ⟨[9], [0x74], [], 0, 0, [], 0, false, [], 0, [], 0⟩]).1.uniq

theorem append_frames_sample :
    Framed (run boundedCollaborators emptyBatch sampleCalls).1 (acceptedLog boundedCollaborators emptyBatch sampleCalls) ∧
      Framed deleteBatch [⟨true, 0, [9]⟩] ∧
      (deleteBatch.pendingWrites = [] →
        (run boundedCollaborators emptyBatch sampleCalls).1.append boundedCollaborators deleteBatch =
          (run boundedCollaborators emptyBatch sampleCalls).1) ∧
      (deleteBatch.pendingWrites ≠ [] →
        boundedCollaborators.allocates (run boundedCollaborators emptyBatch sampleCalls).1.buffer.length
          deleteBatch.buffer.length = true →
        Framed ((run boundedCollaborators emptyBatch sampleCalls).1.append boundedCollaborators deleteBatch)
          (acceptedLog boundedCollaborators emptyBatch sampleCalls ++ [⟨true, 0, [9]⟩])) :=
  have hb : Framed (run boundedCollaborators emptyBatch sampleCalls).1
      (acceptedLog boundedCollaborators emptyBatch sampleCalls) := ⟨rfl, rfl, rfl⟩
  have hn : Framed deleteBatch [⟨true, 0, [9]⟩] := ⟨rfl, rfl, rfl⟩
  ⟨hb, hn, append_frames boundedCollaborators hb hn⟩

end UnitDB.Guarantees.BatchFrames
