import SpaceVerifier.Foundation.BitMem
import SpaceVerifier.Foundation.LittleEndian

/-!
# `snapshot.py`: images built from instructions, snapshots of a space

For images, sizes, offsets and values are natural numbers, which is what the
tests and the derived widths of a configuration give. A snapshot is a file: the
tick counter as eight bytes, least significant first, and the space behind it.
`open` may fail and two paths may name one file; a file that is open takes and
gives all its bytes, as regular files on a disk with room do.
-/

namespace SpaceVerifier.Verifier

open Foundation

/-- The loop of `write_bits`, `k` bits before its end. -/
def writeBitsLoop (bitOffset width value : Nat) : (k i : Nat) → List Byte → List Byte
  | 0, _, data => data
  | k + 1, i, data =>
      let bitVal := (value >>> (width - 1 - i)) &&& 1
      let pos := bitOffset + i
      let byteIdx := pos / 8
      -- the `break` at the end of the data
      if byteIdx ≥ data.length then data
      else
        let bitMask := (1 : Byte) <<< (7 - pos % 8)
        let byte := data.getD byteIdx 0
        writeBitsLoop bitOffset width value k (i + 1)
          (data.set byteIdx (if bitVal ≠ 0 then byte ||| bitMask else byte &&& ~~~bitMask))

/-- `write_bits`: the `width` low bits of `value`, most significant first. -/
def writeBits (data : List Byte) (bitOffset width value : Nat) : List Byte :=
  if width = 0 then data else writeBitsLoop bitOffset width value width 0 data

/-- The loop of `make_fixture` over the triples `(n, dst, src)`, from slot
`slotIdx` on. A slot that does not fit into the space is skipped. -/
def fixtureSlots (slotSize spaceBytes : Nat) :
    Nat → List (Nat × Nat × Nat) → List Byte → List Byte
  | _, [], data => data
  | slotIdx, (n, dst, src) :: rest, data =>
      let fieldW := slotSize / 3
      let bitOffset := slotIdx * slotSize
      if bitOffset + slotSize > spaceBytes * 8 then
        fixtureSlots slotSize spaceBytes (slotIdx + 1) rest data
      else
        let data := writeBits data (bitOffset + 0 * fieldW) fieldW n
        let data := writeBits data (bitOffset + 1 * fieldW) fieldW dst
        let data := writeBits data (bitOffset + 2 * fieldW) fieldW src
        fixtureSlots slotSize spaceBytes (slotIdx + 1) rest data

/-- `make_fixture`. -/
def makeFixture (instrs : List (Nat × Nat × Nat)) (slotSize spaceBytes : Nat) :
    List Byte :=
  fixtureSlots slotSize spaceBytes 0 instrs (List.replicate spaceBytes 0)

/-! ## Snapshots -/

inductive SnapshotExc where
  | valueError (msg : String)
  /-- `struct.error`: a number out of range, or a buffer of the wrong size. -/
  | structError
  | fileNotFound (path : String)
  /-- Every other exception of `open`: a directory, a missing parent, no permission. -/
  | openFailed (path : String)
deriving DecidableEq, Repr

/-- A file system of regular files and directories. A path leads to a place, also where
nothing is there yet; `a` and `./a` and a link to them lead to one place. -/
structure Disk where
  place : String → Nat
  /-- What the file there holds; `none` is a missing file. -/
  contents : Nat → Option (List Byte)
  /-- `open(path, "rb")` succeeds on what is there. -/
  readable : Nat → Bool
  /-- `open(path, "wb")` succeeds, where it also creates a missing file. -/
  writable : Nat → Bool

/-- The file `path` leads to has these bytes now. -/
def Disk.write (disk : Disk) (path : String) (bytes : List Byte) : Disk :=
  { disk with contents := Function.update disk.contents (disk.place path) (some bytes) }

/-- `struct.pack("<Q", v)`. -/
def packQ (v : Int) : Except SnapshotExc (List Byte) :=
  if 0 ≤ v ∧ v < 2 ^ 64 then .ok (leBytes 8 v.toNat) else .error .structError

/-- `struct.unpack("<Q", buffer)[0]`. -/
def unpackQ (buffer : List Byte) : Except SnapshotExc Nat :=
  if buffer.length = 8 then .ok (leValue buffer) else .error .structError

/-- `space_bytes is not None and len(space_data) != space_bytes`. -/
def sizeDiffers (spaceData : List Byte) : Option Int → Bool
  | none => false
  | some expected => decide ((spaceData.length : Int) ≠ expected)

/-- `save_snapshot`; the file is opened after both checks. -/
def saveSnapshot (disk : Disk) (tickCounter : Int) (spaceData : List Byte) (path : String)
    (spaceBytes : Option Int) : Except SnapshotExc Disk :=
  if sizeDiffers spaceData spaceBytes then
    let size := spaceData.length
    let expected := spaceBytes.getD 0
    .error (.valueError s!"space_data size {size} != expected {expected}")
  else do
    let header ← packQ tickCounter
    if disk.writable (disk.place path) then return disk.write path (header ++ spaceData)
    else .error (.openFailed path)

/-- `load_snapshot`. -/
def loadSnapshot (disk : Disk) (path : String) : Except SnapshotExc (Nat × List Byte) :=
  match disk.contents (disk.place path) with
  | none => .error (.fileNotFound path)
  | some contents =>
      if disk.readable (disk.place path) then do
        -- `f.read(8)` returns less at the end of the file
        let tickCounter ← unpackQ (contents.take 8)
        return (tickCounter, contents.drop 8)
      else .error (.openFailed path)

end SpaceVerifier.Verifier
