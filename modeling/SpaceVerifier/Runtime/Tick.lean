import SpaceVerifier.Runtime.Space

/-!
# `space.c`: MMIO service, ticks, runs and the boot loader layer

A `World` is the machine with what surrounds it: the two streams, the calls
received by the installed hooks and the lines printed on `stderr`. `service_in`
and `service_out` return 0 on every path, so the test of their result in
`vm_tick` has no counterpart. The `!vm` guards of the C functions concern a
`NULL` argument, which a `Vm` cannot be; the `NULL` space is kept.
-/

namespace SpaceVerifier.Runtime

open Foundation Foundation.Traced

/-! ## Streams -/

/-- What the next attempt to get a character meets. -/
inductive ReadEvent where
  | byte (b : Byte)
  | eof
  | error
deriving DecidableEq, Repr

/-- An input stream: the outcome of every attempt, the number of attempts made
so far and the two indicators. -/
structure InFile where
  script : Nat → ReadEvent
  pos : Nat
  eof : Bool
  err : Bool

/-- A stream at end-of-file stays there; an error sets its indicator and the
next attempt is made again. -/
def fgetc (f : InFile) : Option Byte × InFile :=
  if f.eof then (none, f)
  else
    match f.script f.pos with
    | .byte b => (some b, { f with pos := f.pos + 1 })
    | .eof => (none, { f with pos := f.pos + 1, eof := true })
    | .error => (none, { f with pos := f.pos + 1, err := true })

/-- `fread(_, 1, n, f)`: the bytes delivered, in order. -/
def fread : Nat → InFile → List Byte × InFile
  | 0, f => ([], f)
  | n + 1, f =>
      match fgetc f with
      | (some b, f) => (b :: (fread n f).1, (fread n f).2)
      | (none, f) => ([], f)

/-- An output stream: how many bytes its `k`-th write accepts, the number of
writes made so far and everything accepted. -/
structure OutFile where
  accept : Nat → Nat
  calls : Nat
  sent : List Byte

/-- `fwrite(bytes, 1, |bytes|, f)`. -/
def fwrite (bytes : List Byte) (f : OutFile) : Nat × OutFile :=
  let put := min bytes.length (f.accept f.calls)
  (put, { f with calls := f.calls + 1, sent := f.sent ++ bytes.take put })

inductive HookEvent where
  | tickBegin (slotsCap : Nat)
  | noteCopy (dst n src : Nat)
  | tickEnd
deriving DecidableEq, Repr

structure World where
  vm : Vm
  inp : InFile
  out : OutFile
  hookLog : List HookEvent
  stderr : List String

def World.withVm (w : World) (vm : Vm) : World := { w with vm := vm }

/-! ## MMIO handshake service -/

def storeBytes (m : Mem) (start : Nat) (bs : List Byte) : Mem :=
  fun j => if start ≤ j ∧ j < start + bs.length then bs.getD (j - start) 0 else m j

/-- The registers of one channel that both services use alike: the two fields
of a request, its answer `GOT` and the status bits. -/
structure Channel where
  req : MmioLayout → Nat
  done : MmioLayout → Nat
  err : MmioLayout → Nat
  addr : MmioLayout → Nat
  len : MmioLayout → Nat
  got : MmioLayout → Nat

def outChannel : Channel :=
  { req := (·.outReq), done := (·.outDone), err := (·.outErr), addr := (·.outSrc),
    len := (·.outLen), got := (·.outGot) }

def inChannel : Channel :=
  { req := (·.inReq), done := (·.inDone), err := (·.inErr), addr := (·.inDst),
    len := (·.inLen), got := (·.inGot) }

/-- A rejected request: `ERR = 1`, `DONE = 1`, `REQ = 0`. -/
def Channel.reject (ch : Channel) (vm : Vm) : Traced Event Vm := do
  let vm ← vmBitSet vm (ch.err vm.mmio) true
  let vm ← vmBitSet vm (ch.done vm.mmio) true
  vmBitSet vm (ch.req vm.mmio) false

/-- A completed request: `GOT`, `DONE = 1`, `REQ = 0`. -/
def Channel.complete (ch : Channel) (w : World) (count : Nat) :
    Traced Event World := do
  let vm ← vmWriteUint w.vm (ch.got w.vm.mmio) w.vm.nBits (count * 8 % 2 ^ 64)
  let vm ← vmBitSet vm (ch.done vm.mmio) true
  let vm ← vmBitSet vm (ch.req vm.mmio) false
  return w.withVm vm

/-- A service from the two fields on: alignment, bounds, `transfer`, answer. -/
def Channel.handle (ch : Channel)
    (transfer : World → Nat → Nat → Traced Event (World × Nat)) (w : World)
    (vm : Vm) : Traced Event World := do
  let addr ← vmReadUint vm (ch.addr vm.mmio) vm.addrBits
  let len ← vmReadUint vm (ch.len vm.mmio) vm.nBits
  if addr % 8 ≠ 0 ∨ len % 8 ≠ 0 then
    let vm ← ch.reject vm
    return w.withVm vm
  else if add64 addr len > vm.spaceBits then
    let vm ← ch.reject vm
    return w.withVm vm
  else
    let r ← transfer (w.withVm vm) (addr / 8) (len / 8)
    ch.complete r.1 r.2

/-- `if (c) vm_bit_set(vm, reg, 1);` -/
def vmBitSetIf (c : Bool) (vm : Vm) (reg : MmioLayout → Nat) : Traced Event Vm :=
  if c then vmBitSet vm (reg vm.mmio) true else pure vm

/-- The `if (nbytes)` block of `service_out`; also returns `put`. -/
def transmit (w : World) (byteSrc nbytes : Nat) : Traced Event (World × Nat) :=
  if nbytes ≠ 0 then do
    emit (.fwrite byteSrc nbytes)
    let r := fwrite (bytesAt w.vm.mem byteSrc nbytes) w.out
    let put := r.1
    let vm ← vmBitSetIf (put != nbytes) w.vm (·.outErr)
    return ({ w with vm := vm, out := r.2 }, put)
  else return (w, 0)

def serviceOut (w : World) : Traced Event World := do
  let req ← vmBitGet w.vm w.vm.mmio.outReq
  if !req then return w
  else
    let vm ← vmBitSet w.vm w.vm.mmio.outDone false
    let vm ← vmBitSet vm vm.mmio.outErr false
    let vm ← vmWriteUint vm vm.mmio.outGot vm.nBits 0
    outChannel.handle transmit w vm

/-- The `if (nbytes)` block of `service_in`; also returns `got`. -/
def receive (w : World) (byteDst nbytes : Nat) : Traced Event (World × Nat) :=
  if nbytes ≠ 0 then do
    emit (.fread byteDst nbytes)
    let r := fread nbytes w.inp
    let got := r.1.length
    let inp := r.2
    let vm := w.vm.withMem (storeBytes w.vm.mem byteDst r.1)
    let vm ← vmBitSetIf (got == 0 && inp.eof) vm (·.inEof)
    let vm ← vmBitSetIf inp.err vm (·.inErr)
    return ({ w with vm := vm, inp := inp }, got)
  else return (w, 0)

def serviceIn (w : World) : Traced Event World := do
  let req ← vmBitGet w.vm w.vm.mmio.inReq
  if !req then return w
  else
    let vm ← vmBitSet w.vm w.vm.mmio.inDone false
    let vm ← vmBitSet vm vm.mmio.inEof false
    let vm ← vmBitSet vm vm.mmio.inErr false
    let vm ← vmWriteUint vm vm.mmio.inGot vm.nBits 0
    inChannel.handle receive w vm

/-! ## One tick -/

/-- The line printed for a bounds error. -/
def VmErr.line (e : VmErr) : String :=
  s!"VM_ERR: tick={e.tick} slot={e.slot} n={e.ins.n} dst={e.ins.dst} src={e.ins.src} kind={e.kind.code} space_bits={e.spaceBits}\n"

/-- The two error exits of the slot loop: record, print, stop. -/
def recordErr (w : World) (kind : VmErrKind) (slot : Nat) (ins : VmInst) :
    World :=
  let e : VmErr := { kind, tick := w.vm.tickCounter, slot, ins,
                     spaceBits := w.vm.spaceBits }
  { w with vm := { w.vm with lastErr := e }, stderr := w.stderr ++ [e.line] }

def World.note (w : World) (installed : Bool) (e : HookEvent) : World :=
  if installed then { w with hookLog := w.hookLog ++ [e] } else w

/-- The copy of one slot: the `note_copy` hook, then `bitcpy` on the space. -/
def execCopy (w : World) (ins : VmInst) : Traced Event World := do
  let w := w.note w.vm.hooks.noteCopy (.noteCopy ins.dst ins.n ins.src)
  emit (.bitcpy ins.n ins.src ins.dst)
  return w.withVm (w.vm.withMem (bitcpy w.vm.mem ins.n 0 ins.src 0 ins.dst).val)

/-- Slots `i, i + 1, …`, `k` of them: the fetch-execute loop. -/
def execSlots : (k i : Nat) → World → Traced Event (VmRc × World)
  | 0, _, w => pure (.ok, w)
  | k + 1, i, w => do
      -- fetched from the memory the earlier slots have left
      let ins ← vmReadInst w.vm (vmProcSlotIp w.vm i)
      emit (.fetch i ins)
      if ins.n = 0 then execSlots k (i + 1) w
      else if add64 ins.src ins.n > w.vm.spaceBits then
        return (.err, recordErr w .srcBounds i ins)
      else if add64 ins.dst ins.n > w.vm.spaceBits then
        return (.err, recordErr w .dstBounds i ins)
      else
        let w ← execCopy w ins
        execSlots k (i + 1) w

/-- `vm->tick_counter++`. -/
def Vm.bump (vm : Vm) : Vm :=
  { vm with tickCounter := (vm.tickCounter + 1) % 2 ^ 64 }

/-- The diagnostics reset at the head of a tick. -/
def Vm.resetErr (vm : Vm) : Vm :=
  { vm with lastErr := { kind := .none, tick := vm.tickCounter, slot := 0,
                         ins := ⟨0, 0, 0⟩, spaceBits := vm.spaceBits } }

/-- The MMIO phase: OUT before IN. -/
def mmioPhase (w : World) : Traced Event World := do
  let w ← serviceOut (w.withVm w.vm.resetErr)
  serviceIn w

/-- The slot phase between the two bracketing hooks. -/
def slotPhase (w : World) : Traced Event (VmRc × World) := do
  let w := w.note w.vm.hooks.tickBegin (.tickBegin w.vm.processorN)
  let r ← execSlots w.vm.processorN 0 w
  if r.1 = .err then return r
  else
    let w := r.2.note r.2.vm.hooks.tickEnd .tickEnd
    return (.ok, w.withVm w.vm.bump)

def vmTick (w : World) : Traced Event (VmRc × World) :=
  if w.vm.space.isNone then return (.err, w)
  else do
    let w ← mmioPhase w
    let halt ← vmBitGet w.vm w.vm.mmio.halt
    if halt then return (.halt, w.withVm w.vm.bump)
    else slotPhase w

def vmRun : Nat → World → Traced Event (VmRc × World)
  | 0, w => pure (.ok, w)
  | life + 1, w => do
      let r ← vmTick w
      if r.1 ≠ .ok then return r else vmRun life r.2

/-! ## The boot loader layer -/

def clearProcessor (vm : Vm) : Traced Event Vm :=
  forUp (fun i vm => vmWriteInst vm (vmProcSlotIp vm i) ⟨0, 0, 0⟩)
    vm.processorN vm

/-- Slot numbers are `unsigned`, so the two subtractions wrap. -/
def vmBuildBootLoaderLayer (vm : Vm) (nextLayerPtr : Nat) :
    Traced Event (Int × Vm) :=
  if nextLayerPtr ≥ (1 <<< vm.addrBits) % 2 ^ 64 then return (-1, vm)
  else do
    let vm ← clearProcessor vm
    -- a NOP that carries the pointer in its `dst` field
    let vm ← vmWriteInst vm (vmProcSlotIp vm 0) ⟨0, nextLayerPtr, 0⟩
    let patchSlot := (vm.processorN + (2 ^ 32 - 2)) % 2 ^ 32
    let loadSlot := (vm.processorN + (2 ^ 32 - 1)) % 2 ^ 32
    let srcFieldOfLoad := vmProcSlotFieldIp vm loadSlot vm.offSrc
    let dstFieldOfSlot0 := vmProcSlotFieldIp vm 0 vm.offDst
    -- copies that field into the `src` field of the load
    let patch : VmInst :=
      { n := vm.addrBits, dst := srcFieldOfLoad, src := dstFieldOfSlot0 }
    let load : VmInst :=
      { n := vm.processorBits, dst := vm.processorStart, src := 0 }
    let vm ← vmWriteInst vm (vmProcSlotIp vm patchSlot) patch
    let vm ← vmWriteInst vm (vmProcSlotIp vm loadSlot) load
    return (0, vm)

end SpaceVerifier.Runtime
