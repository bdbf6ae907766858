import UnitDB.Source.Header

/-!
# The header survives a close and a reopen

`MarshalBinary` puts every field of the header where the spec's layout says, inside the
`headerSize` octets, and `UnmarshalBinary` reads every field back: the seven octets of the
signature, the `uint32` words, and `freelistOff` through its `uint64` word, negative values
included. So a database opened on the index file `writeHeader` left, whatever `dbInfo` it starts
with, gets back from `readHeader` the index's counters and its hash seed (the salted hash reads
no other field), with no error but that of the freelist read; and the linear-hash index built on
them picks the same chain for every hash.
-/

set_option autoImplicit false

namespace UnitDB.Guarantees.HeaderCodec
open UnitDB.Source UnitDB.Source.IndexHeader

theorem header_codec_round_trip :
    (∀ h : Header, unmarshalBinary h.marshalBinary = some h ∧ h.marshalBinary = h.layout ∧
      h.marshalBinary.length = headerSize) ∧
    ∀ (db : HeaderDB) (off : Int64) (reopened : DbInfo) (readFreeList : Bool) (flRead : Option Error),
      (db.writeHeader (.ok off)).2 = none ∧
      ∃ db', (⟨reopened, (db.writeHeader (.ok off)).1.index⟩ : HeaderDB).readHeader readFreeList flRead =
          some (db', if readFreeList then flRead else none) ∧
        db'.info.level = db.info.level ∧ db'.info.count = db.info.count ∧
        db'.info.nBlocks = db.info.nBlocks ∧ db'.info.splitBlockIdx = db.info.splitBlockIdx ∧
        db'.info.hashSeed = db.info.hashSeed ∧
        ∀ index : LinearHash.HashDB, (withInfo index db'.info).blockIndex = (withInfo index db.info).blockIndex := by
  refine ⟨fun h => ⟨?_, marshalBinary_eq_layout h, ?_⟩, fun db off reopened readFreeList flRead => ⟨rfl, ?_⟩⟩
  · rw [marshalBinary_eq_layout, unmarshalBinary_layout]
  · rw [marshalBinary_eq_layout, layout_length]
  · obtain ⟨db', read, info, -⟩ := readHeader_writeHeader db off reopened readFreeList flRead
    refine ⟨db', read, ?_⟩
    rw [info]
    exact ⟨rfl, rfl, rfl, rfl, rfl, fun _ => rfl⟩

end UnitDB.Guarantees.HeaderCodec
