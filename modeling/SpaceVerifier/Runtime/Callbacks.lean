import SpaceVerifier.Runtime.Tick

/-!
# `space.c`: ticks with the callbacks of a host

The ticks of `Runtime.Tick` have hooks that write down what they are told. The
hooks of a host are functions of its own: `vm_tick` hands them `user`, through
which they reach what the host pleases, the machine included. Here they are
functions on the data of the host and the world, a missing one a `NULL`.
-/

namespace SpaceVerifier.Runtime

open Foundation Foundation.Traced

/-- `vm_hooks_t` of a host whose `user` points to a `U`. -/
structure Callbacks (U : Type) where
  tickBegin : Option (Nat → U × World → U × World)
  noteCopy : Option (Nat → Nat → Nat → U × World → U × World)
  tickEnd : Option (U × World → U × World)

/-- No hook is installed. -/
def Callbacks.none {U : Type} : Callbacks U :=
  { tickBegin := .none, noteCopy := .none, tickEnd := .none }

section Calls

variable {U : Type} (cb : Callbacks U) (s : U × World)

def callTickBegin : U × World :=
  match cb.tickBegin with
  | some f => f s.2.vm.processorN s
  | none => s

def callNoteCopy (ins : VmInst) : U × World :=
  match cb.noteCopy with
  | some f => f ins.dst ins.n ins.src s
  | none => s

def callTickEnd : U × World :=
  match cb.tickEnd with
  | some f => f s
  | none => s

/-- `execCopy`, and who is told of the copy. -/
def execCopyWith (ins : VmInst) : Traced Event (U × World) := do
  let s := callNoteCopy cb s ins
  emit (.bitcpy ins.n ins.src ins.dst)
  return (s.1, s.2.withVm (s.2.vm.withMem (bitcpy s.2.vm.mem ins.n 0 ins.src 0 ins.dst).val))

end Calls

section Ticks

variable {U : Type} (cb : Callbacks U)

def execSlotsWith : (k i : Nat) → U × World → Traced Event (VmRc × U × World)
  | 0, _, s => pure (.ok, s)
  | k + 1, i, s => do
      let ins ← vmReadInst s.2.vm (vmProcSlotIp s.2.vm i)
      emit (.fetch i ins)
      if ins.n = 0 then execSlotsWith k (i + 1) s
      else if add64 ins.src ins.n > s.2.vm.spaceBits then
        return (.err, s.1, recordErr s.2 .srcBounds i ins)
      else if add64 ins.dst ins.n > s.2.vm.spaceBits then
        return (.err, s.1, recordErr s.2 .dstBounds i ins)
      else
        let s ← execCopyWith cb s ins
        execSlotsWith k (i + 1) s

def slotPhaseWith (s : U × World) : Traced Event (VmRc × U × World) := do
  let s := callTickBegin cb s
  let r ← execSlotsWith cb s.2.vm.processorN 0 s
  if r.1 = .err then return r
  else
    let s := callTickEnd cb r.2
    return (.ok, s.1, s.2.withVm s.2.vm.bump)

def vmTickWith (s : U × World) : Traced Event (VmRc × U × World) :=
  if s.2.vm.space.isNone then return (.err, s)
  else do
    let w ← mmioPhase s.2
    let halt ← vmBitGet w.vm w.vm.mmio.halt
    if halt then return (.halt, s.1, w.withVm w.vm.bump)
    else slotPhaseWith cb (s.1, w)

def vmRunWith : Nat → U × World → Traced Event (VmRc × U × World)
  | 0, s => pure (.ok, s)
  | life + 1, s => do
      let r ← vmTickWith cb s
      if r.1 ≠ .ok then return r else vmRunWith life r.2

end Ticks

end SpaceVerifier.Runtime
