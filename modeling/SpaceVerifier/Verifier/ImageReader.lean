import SpaceVerifier.Foundation.BitMem
import SpaceVerifier.Verifier.Config

/-!
# `image_reader.py`: instructions from a memory dump
-/

namespace SpaceVerifier.Verifier

open Foundation

structure Instruction where
  slot : Nat
  n : Nat
  dst : Nat
  src : Nat
deriving DecidableEq, Repr

def Instruction.isNop (ins : Instruction) : Bool := ins.n == 0

/-- `int.from_bytes(chunk, 'big')`. -/
def fromBytesBE (chunk : List Byte) : Nat :=
  chunk.foldl (fun v b => v * 256 + b.toNat) 0

/-- `_read_bits_slow`: bit by bit, absent bytes read as zero. -/
def readBitsSlow (data : List Byte) (startBit : Nat) : Nat → Nat
  | 0 => 0
  | width + 1 =>
      let result := readBitsSlow data startBit width
      let pos := startBit + width
      match data[pos / 8]? with
      | some byte =>
          let bit := (byte.toNat >>> (7 - pos % 8)) &&& 1
          (result <<< 1) ||| bit
      | none => result <<< 1

/-- `_read_bits`: a slice of bytes, one big-endian integer, shift and mask. -/
def readBits (data : List Byte) (startBit : Nat) (width : Int) : Nat :=
  if width ≤ 0 then 0
  else if width > 64 then readBitsSlow data startBit width.toNat
  else
    let w := width.toNat
    let endBit := startBit + w
    let startByte := startBit / 8
    let endByte := (endBit - 1) / 8
    let nBytes := endByte - startByte + 1
    let chunk := (data.drop startByte).take nBytes
    let val := fromBytesBE chunk
    let shift := 8 * nBytes - startBit % 8 - w
    let val := if shift > 0 then val >>> shift else val
    val &&& ((1 <<< w) - 1)

/-- `_read_instruction`. With a float `addr_bits` each field first meets
`width <= 0`, and past that test an integer-only operation rejects it. -/
def readInstruction (cfg : Config) (data : List Byte) (slot : Nat) :
    Except PyExc Instruction :=
  match cfg.addrBits with
  | .float x =>
      if x.le (.fin 0) then .ok { slot, n := 0, dst := 0, src := 0 }
      else .error .typeError
  | _ => do
      let startBit : Int := slot * (← cfg.instrBits)
      let width ← cfg.addrBits.asInt
      let n := readBits data (startBit + cfg.offN).toNat (← cfg.nBits)
      let dst := readBits data (startBit + (← cfg.offDst)).toNat width
      let src := readBits data (startBit + (← cfg.offSrc)).toNat width
      return { slot, n, dst, src }

/-- `ImageReader.read`. -/
def read (cfg : Config) (data : List Byte) : Except PyExc (List Instruction) := do
  if ← (PyVal.int data.length).lt cfg.spaceBytes then
    throw (.valueError "data size < space_bytes"
      [.int data.length, cfg.spaceBytes])
  let slots ← cfg.processorN.range
  (List.range slots).mapM (readInstruction cfg data)

end SpaceVerifier.Verifier
