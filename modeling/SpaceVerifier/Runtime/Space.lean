import SpaceVerifier.Runtime.Bitcpy

/-!
# `space.h`, `space.c`: the machine, its codec and its initialisation

`Vm` has the fields of `vm_t`. The ones `vm_init` computes once and nothing
writes again are grouped in `VmGeometry`, so that "the layout never changes" is
one equation. A `NULL` space is `none`; machine integers are naturals, reduced
where the C type can wrap. Every access to the space is recorded as an `Event`.
-/

namespace SpaceVerifier.Runtime

open Foundation Foundation.Traced

/-! ## Types -/

structure VmInst where
  n : Nat
  dst : Nat
  src : Nat
deriving DecidableEq, Repr

inductive VmErrKind where
  | none
  | srcBounds
  | dstBounds
  | align32
deriving DecidableEq, Repr

/-- `VM_E_*` as printed by `%d`. -/
def VmErrKind.code : VmErrKind → Nat
  | .none => 0
  | .srcBounds => 1
  | .dstBounds => 2
  | .align32 => 3

structure VmErr where
  kind : VmErrKind
  tick : Nat
  slot : Nat
  ins : VmInst
  spaceBits : Nat
deriving DecidableEq, Repr

/-- Which of the three callbacks are installed (non-`NULL`). -/
structure VmHooks where
  tickBegin : Bool
  noteCopy : Bool
  tickEnd : Bool
deriving DecidableEq, Repr

inductive VmRc where
  | ok
  | halt
  | err
deriving DecidableEq, Repr

structure MmioLayout where
  base : Nat
  inReq : Nat
  inDone : Nat
  inEof : Nat
  inErr : Nat
  inDst : Nat
  inLen : Nat
  inGot : Nat
  outReq : Nat
  outDone : Nat
  outErr : Nat
  outSrc : Nat
  outLen : Nat
  outGot : Nat
  halt : Nat
  endBit : Nat
deriving DecidableEq, Repr

structure VmGeometry where
  spaceBytes : Nat
  spaceBits : Nat
  processorN : Nat
  addrBits : Nat
  nBits : Nat
  instrBits : Nat
  instrBytes : Nat
  processorStart : Nat
  processorBits : Nat
  offN : Nat
  offDst : Nat
  offSrc : Nat
  mmio : MmioLayout
  workspaceBase : Nat
deriving DecidableEq, Repr

structure Vm extends VmGeometry where
  space : Option Mem
  hooks : VmHooks
  strictAlign32 : Int
  tickCounter : Nat
  lastErr : VmErr

/-- The bytes behind `vm->space`. -/
def Vm.mem (vm : Vm) : Mem := vm.space.getD fun _ => 0

def Vm.withMem (vm : Vm) (m : Mem) : Vm := { vm with space := some m }

/-- What the runtime does to its memory and its streams, call by call. -/
inductive Event where
  | bitGet (pos : Nat)
  | bitSet (pos : Nat)
  | readUint (pos width : Nat)
  | writeUint (pos width : Nat)
  | fread (byteDst nbytes : Nat)
  | fwrite (byteSrc nbytes : Nat)
  | bitcpy (n src dst : Nat)
  | fetch (slot : Nat) (ins : VmInst)
deriving DecidableEq, Repr

/-! ## Bit primitives -/

def vmBitGet (vm : Vm) (pos : Nat) : Traced Event Bool := do
  emit (.bitGet pos)
  let byte := vm.mem (pos / 8)
  let shift := 7 - pos % 8
  return decide ((byte >>> shift) &&& 1 ≠ 0)

def vmBitSet (vm : Vm) (pos : Nat) (v : Bool) : Traced Event Vm := do
  emit (.bitSet pos)
  let byte := vm.mem (pos / 8)
  let shift := 7 - pos % 8
  let mask := (1 : Byte) <<< shift
  return vm.withMem (vm.mem.store (pos / 8)
    (if v then byte ||| mask else byte &&& ~~~mask))

def vmReadUint (vm : Vm) (pos width : Nat) : Traced Event Nat := do
  emit (.readUint pos width)
  if width = 0 ∨ width > 64 then return 0
  else
    forUp (fun i v => do
      let bit ← vmBitGet vm (add64 pos i)
      return ((v <<< 1) ||| bit.toNat) % 2 ^ 64) width 0

def vmWriteUint (vm : Vm) (pos width value : Nat) : Traced Event Vm := do
  emit (.writeUint pos width)
  if width = 0 ∨ width > 64 then return vm
  else
    forUp (fun i vm =>
      let bit := (value >>> (width - 1 - i)) &&& 1
      vmBitSet vm (add64 pos i) (decide (bit ≠ 0))) width vm

/-! ## Instruction encoding -/

def vmReadInst (vm : Vm) (ip : Nat) : Traced Event VmInst := do
  let n ← vmReadUint vm (add64 ip vm.offN) vm.nBits
  let dst ← vmReadUint vm (add64 ip vm.offDst) vm.addrBits
  let src ← vmReadUint vm (add64 ip vm.offSrc) vm.addrBits
  return { n := n, dst := dst, src := src }

def vmWriteInst (vm : Vm) (ip : Nat) (ins : VmInst) : Traced Event Vm := do
  let vm ← vmWriteUint vm (add64 ip vm.offN) vm.nBits ins.n
  let vm ← vmWriteUint vm (add64 ip vm.offDst) vm.addrBits ins.dst
  vmWriteUint vm (add64 ip vm.offSrc) vm.addrBits ins.src

def vmProcSlotIp (vm : Vm) (slot : Nat) : Nat :=
  add64 vm.processorStart (slot * vm.instrBits % 2 ^ 64)

def vmProcSlotFieldIp (vm : Vm) (slot fieldOffBits : Nat) : Nat :=
  add64 (vmProcSlotIp vm slot) fieldOffBits

/-! ## Widths and layout -/

/-- The doubling loop of `ceil_log2_u64`. `p` is a 64-bit word: after 64
doublings it is zero and the loop would never end, which is `none`. -/
def ceilLog2Loop (x : Nat) : Nat → Nat → Nat → Option Nat
  | 0, _, _ => none
  | fuel + 1, k, p =>
      if p < x then ceilLog2Loop x fuel (k + 1) ((p <<< 1) % 2 ^ 64)
      else some k

def ceilLog2U64 (x : Nat) : Option Nat := ceilLog2Loop x 66 0 1

def roundUpTo8 (x : Nat) : Nat :=
  let y := (x + 7) % 2 ^ 32
  y - y % 8

def vmComputeMmioLayout (g : VmGeometry) : VmGeometry :=
  let base := g.processorBits
  let inReq := base
  let inDone := add64 inReq 1
  let inEof := add64 inDone 1
  let inErr := add64 inEof 1
  let inDst := add64 inErr 1
  let inLen := add64 inDst g.addrBits
  let inGot := add64 inLen g.nBits
  let outReq := add64 inGot g.nBits
  let outDone := add64 outReq 1
  let outErr := add64 outDone 1
  let outSrc := add64 outErr 1
  let outLen := add64 outSrc g.addrBits
  let outGot := add64 outLen g.nBits
  let halt := add64 outGot g.nBits
  let p := add64 (add64 halt 1) 7
  let endBit := p - p % 8
  { g with
    mmio := { base, inReq, inDone, inEof, inErr, inDst, inLen, inGot,
              outReq, outDone, outErr, outSrc, outLen, outGot, halt, endBit }
    workspaceBase := endBit }

/-! ## `vm_init` and `vm_free` -/

def MmioLayout.zero : MmioLayout := ⟨0, 0, 0, 0, 0, 0, 0, 0, 0, 0, 0, 0, 0, 0, 0, 0⟩

def VmGeometry.zero : VmGeometry :=
  ⟨0, 0, 0, 0, 0, 0, 0, 0, 0, 0, 0, 0, MmioLayout.zero, 0⟩

/-- `memset(vm, 0, sizeof *vm)`. -/
def Vm.zero : Vm :=
  { VmGeometry.zero with
    space := none
    hooks := ⟨false, false, false⟩
    strictAlign32 := 0
    tickCounter := 0
    lastErr := ⟨.none, 0, 0, ⟨0, 0, 0⟩, 0⟩ }

/-- `vm_free` on a non-`NULL` machine: `free(vm->space)` and `memset`. -/
def vmFree (_ : Vm) : Vm := Vm.zero

/-- The widths and offsets set between the allocation and the first sanity
check; `raw` is the result of `ceil_log2_u64`. -/
def vmDeriveWidths (spaceBytes processorN raw : Nat) : VmGeometry :=
  let spaceBits := spaceBytes * 8 % 2 ^ 64
  let addrBits := if roundUpTo8 raw < 8 then 8 else roundUpTo8 raw
  let nBits := addrBits
  let instrBits := 3 * addrBits % 2 ^ 32
  { VmGeometry.zero with
    spaceBytes, spaceBits, processorN, addrBits, nBits, instrBits
    instrBytes := instrBits / 8
    processorStart := 0
    processorBits := processorN * instrBits % 2 ^ 64
    offN := 0
    offDst := nBits
    offSrc := (nBits + addrBits) % 2 ^ 32 }

/-- `calloc bytes` says whether the host grants a zeroed block of that size;
`none` is the call that never returns. -/
def vmInit (calloc : Nat → Bool) (spaceBytes processorN : Nat) :
    Option (Int × Vm) :=
  let vm := Vm.zero
  if spaceBytes = 0 then some (-1, vm)
  else if processorN = 0 then some (-1, vm)
  else if !calloc spaceBytes then some (-1, vm)
  else
    match ceilLog2U64 (spaceBytes * 8 % 2 ^ 64) with
    | none => none
    | some raw =>
        let g := vmDeriveWidths spaceBytes processorN raw
        let vm : Vm := { vm with toVmGeometry := g, space := some fun _ => 0 }
        if vm.processorBits > vm.spaceBits then some (-1, vmFree vm)
        else
          let vm : Vm := { vm with toVmGeometry := vmComputeMmioLayout g }
          if vm.mmio.endBit > vm.spaceBits then some (-1, vmFree vm)
          else some (0, vm)

end SpaceVerifier.Runtime
