import SpaceVerifier.Metatheory.Recorders
import SpaceVerifier.Metatheory.BootLoader
import SpaceVerifier.Metatheory.StrictAlign
import SpaceVerifier.Metatheory.TickDiagnosis

/-!
# Sessions of a host

A host calls the machine in any order: ticks and runs, the encoding helpers, the
builder of the boot layer, and between them the optional parts, which are the
callbacks, `strict_align32` and the check of the pointer variables. As long as the
host stays inside the space and its callbacks only record, the optional parts do not
influence what the rest of the session does and answers.
-/

namespace SpaceVerifier.Runtime

open Foundation Foundation.Traced

/-! ## Calls -/

/-- A host with data `U`, which has its callbacks installed, and the world. -/
structure Host (U : Type) where
  callbacks : Callbacks U
  user : U
  world : World

/-- A call of the host on a machine that `vm_init` has accepted. -/
inductive HostCall (U : Type) where
  | tick
  | run (life : Nat)
  | bitGet (pos : Nat)
  | bitSet (pos : Nat) (v : Bool)
  | readUint (pos width : Nat)
  | writeUint (pos width value : Nat)
  | readInst (ip : Nat)
  | writeInst (ip : Nat) (ins : VmInst)
  | buildBootLoader (nextLayerPtr : Nat)
  | setHooks (callbacks : Callbacks U)
  | setStrictAlign32 (v : Int)
  | checkInvariants

/-- What a call returns. -/
inductive Answer where
  | rc (r : VmRc)
  | bit (b : Bool)
  | word (v : Nat)
  | inst (ins : VmInst)
  | code (c : Int)
  | void

variable {U : Type}

/-- The optional parts. -/
def HostCall.optional : HostCall U → Bool
  | .setHooks _ | .setStrictAlign32 _ | .checkInvariants => true
  | _ => false

/-- What the C code expects of a host: it stays inside the space, builds the boot layer
where there are two slots for its two copies, and installs callbacks that record. -/
def HostCall.Fair (g : VmGeometry) : HostCall U → Prop
  | .bitGet pos | .bitSet pos _ => pos < g.spaceBits
  | .readUint pos width | .writeUint pos width _ => pos + width ≤ g.spaceBits
  | .readInst ip | .writeInst ip _ => ip + g.instrBits ≤ g.spaceBits
  | .buildBootLoader _ => 2 ≤ g.processorN
  | .setHooks callbacks => callbacks.Recording
  | .tick | .run _ | .setStrictAlign32 _ | .checkInvariants => True

/-- `vm->strict_align32 = v`. -/
def Vm.setStrictAlign32 (vm : Vm) (v : Int) : Vm := { vm with strictAlign32 := v }

def Host.withWorld (s : Host U) (w : World) : Host U := { s with world := w }

/-- What a tick or a run returns, with the data and the world behind it. -/
def Host.returned (s : Host U) (r : VmRc × U × World) : Answer × Host U :=
  (.rc r.1, { s with user := r.2.1, world := r.2.2 })

def hostCall (s : Host U) : HostCall U → Answer × Host U
  | .tick => s.returned (vmTickWith s.callbacks (s.user, s.world)).val
  | .run life => s.returned (vmRunWith s.callbacks life (s.user, s.world)).val
  | .bitGet pos => (.bit (vmBitGet s.world.vm pos).val, s)
  | .bitSet pos v => (.void, s.withWorld (s.world.withVm (vmBitSet s.world.vm pos v).val))
  | .readUint pos width => (.word (vmReadUint s.world.vm pos width).val, s)
  | .writeUint pos width value =>
      (.void, s.withWorld (s.world.withVm (vmWriteUint s.world.vm pos width value).val))
  | .readInst ip => (.inst (vmReadInst s.world.vm ip).val, s)
  | .writeInst ip ins =>
      (.void, s.withWorld (s.world.withVm (vmWriteInst s.world.vm ip ins).val))
  | .buildBootLoader ptr =>
      (.code (vmBuildBootLoaderLayer s.world.vm ptr).val.1,
        s.withWorld (s.world.withVm (vmBuildBootLoaderLayer s.world.vm ptr).val.2))
  | .setHooks callbacks => (.void, { s with callbacks })
  | .setStrictAlign32 v =>
      (.void, s.withWorld (s.world.withVm (s.world.vm.setStrictAlign32 v)))
  | .checkInvariants =>
      (.code (vmInvariantsStrictAlign32Check s.world).val.1,
        s.withWorld (vmInvariantsStrictAlign32Check s.world).val.2)

/-- The calls with their answers, and the host they leave. -/
def session : List (HostCall U) → Host U → List (HostCall U × Answer) × Host U
  | [], s => ([], s)
  | call :: calls, s =>
      let rest := session calls (hostCall s call).2
      ((call, (hostCall s call).1) :: rest.1, rest.2)

/-! ## Writes of the host -/

/-- On machines with this geometry the operation is a function of the memory. -/
def WritesMem (g : VmGeometry) (op : Vm → Traced Event Vm) : Prop :=
  ∃ f : Mem → Mem, ∀ vm : Vm, vm.toVmGeometry = g → vm.space.isSome →
    (op vm).val = vm.withMem (f vm.mem)

section Writes

variable {g : VmGeometry}

theorem writesMem_pure : WritesMem g fun vm => pure vm :=
  ⟨id, fun _ _ hs => (Vm.withMem_mem hs).symm⟩

theorem WritesMem.bind {op op' : Vm → Traced Event Vm} (h : WritesMem g op)
    (h' : WritesMem g op') : WritesMem g fun vm => op vm >>= op' := by
  obtain ⟨f, hf⟩ := h
  obtain ⟨f', hf'⟩ := h'
  refine ⟨fun m => f' (f m), fun vm hgeo hs => ?_⟩
  rw [val_bind, hf vm hgeo hs, hf' (vm.withMem (f vm.mem)) hgeo rfl]
  rfl

/-- What an operation reads of the layout may be taken from `g`. -/
theorem WritesMem.of_eq {op op' : Vm → Traced Event Vm} (h : WritesMem g op')
    (heq : ∀ vm : Vm, vm.toVmGeometry = g → (op vm).val = (op' vm).val) : WritesMem g op := by
  obtain ⟨f, hf⟩ := h
  exact ⟨f, fun vm hgeo hs => (heq vm hgeo).trans (hf vm hgeo hs)⟩

theorem WritesMem.forUp {body : Nat → Vm → Traced Event Vm}
    (h : ∀ i, WritesMem g (body i)) (n : Nat) : WritesMem g (forUp body n) := by
  induction n with
  | zero => exact writesMem_pure
  | succ n ih => exact ih.bind (h n)

theorem writesMem_bitSet (pos : Nat) (v : Bool) : WritesMem g fun vm => vmBitSet vm pos v :=
  ⟨fun m => m.setBit pos v, fun vm _ _ => vmBitSet_val vm pos v⟩

theorem writesMem_writeUint (pos width value : Nat) :
    WritesMem g fun vm => vmWriteUint vm pos width value := by
  by_cases hw : width = 0 ∨ width > 64
  · refine writesMem_pure.of_eq fun vm _ => ?_
    rw [vmWriteUint, val_bind, val_ite, if_pos hw]
  · refine WritesMem.of_eq (WritesMem.forUp (fun i => writesMem_bitSet (add64 pos i)
      (decide ((value >>> (width - 1 - i)) &&& 1 ≠ 0))) width) fun vm _ => ?_
    rw [vmWriteUint, val_bind, val_ite, if_neg hw]

theorem writesMem_writeInst (ip : Nat) (ins : VmInst) :
    WritesMem g fun vm => vmWriteInst vm ip ins := by
  have hfield : ∀ (off width : VmGeometry → Nat) (value : Nat), WritesMem g fun vm =>
      vmWriteUint vm (add64 ip (off vm.toVmGeometry)) (width vm.toVmGeometry) value := by
    intro off width value
    refine (writesMem_writeUint (add64 ip (off g)) (width g) value).of_eq ?_
    rintro vm rfl
    rfl
  exact (hfield (·.offN) (·.nBits) ins.n).bind
    ((hfield (·.offDst) (·.addrBits) ins.dst).bind (hfield (·.offSrc) (·.addrBits) ins.src))

end Writes

/-! ## The optional parts are transparent -/

section Transparent

variable {g : VmGeometry} (hg : g.Wf) (ha : g.addrBits ≤ 56) {w w' : World}
  (h : SameCore Set.univ g w w')
include h

/-- A write of the host, on both machines. -/
theorem SameCore.write {op : Vm → Traced Event Vm} (hop : WritesMem g op) :
    SameCore Set.univ g (w.withVm (op w.vm).val) (w'.withVm (op w'.vm).val) := by
  obtain ⟨f, hf⟩ := hop
  rw [hf w.vm h.left.geometry h.left.space, hf w'.vm h.right.geometry h.right.space, h.mem_eq]
  exact ⟨⟨h.left.geometry, rfl⟩, ⟨h.right.geometry, rfl⟩, fun _ _ => rfl, h.inp, h.out,
    h.tickCounter⟩

include hg ha

theorem SameCore.build (ptr : Nat) :
    (vmBuildBootLoaderLayer w.vm ptr).val.1 = (vmBuildBootLoaderLayer w'.vm ptr).val.1 ∧
      SameCore Set.univ g (w.withVm (vmBuildBootLoaderLayer w.vm ptr).val.2)
        (w'.withVm (vmBuildBootLoaderLayer w'.vm ptr).val.2) := by
  have hbuild : ∀ v : World, Ready g v →
      (vmBuildBootLoaderLayer v.vm ptr).val = if ptr < 2 ^ g.addrBits
        then (0, v.vm.withMem (bootMem g ptr v.vm.mem)) else (-1, v.vm) := by
    intro v hv
    have hgeo := hv.geometry
    subst hgeo
    split
    · next hptr => exact build_val ptr hg hv.space ha hptr
    · next hptr => exact build_refused ha (not_lt.mp hptr)
  rw [hbuild w h.left, hbuild w' h.right, h.mem_eq]
  split
  · exact ⟨rfl, ⟨h.left.geometry, rfl⟩, ⟨h.right.geometry, rfl⟩, fun _ _ => rfl, h.inp, h.out,
      h.tickCounter⟩
  · exact ⟨rfl, h⟩

end Transparent

/-- Two hosts whose callbacks only record, on machines with the same core. -/
structure SameSession (g : VmGeometry) (s s' : Host U) : Prop where
  left : s.callbacks.Recording
  right : s'.callbacks.Recording
  core : SameCore Set.univ g s.world s'.world

section Calls

variable {g : VmGeometry} (hg : g.Wf) (ha : g.addrBits ≤ 56) {s s' : Host U}
  (h : SameSession g s s')
include h

theorem SameSession.withWorld {w w' : World} (hw : SameCore Set.univ g w w') :
    SameSession g (s.withWorld w) (s'.withWorld w') := ⟨h.left, h.right, hw⟩

/-- Both ticks are those of a plain machine. -/
theorem SameSession.returned {r r' : VmRc × U × World} {p : VmRc × World}
    (hr : r.1 = p.1 ∧ SameCore Set.univ g r.2.2 p.2)
    (hr' : r'.1 = p.1 ∧ SameCore Set.univ g r'.2.2 p.2) :
    (s.returned r).1 = (s'.returned r').1 ∧ SameSession g (s.returned r).2 (s'.returned r').2 :=
  ⟨congrArg Answer.rc (hr.1.trans hr'.1.symm), h.left, h.right, hr.2.trans hr'.2.symm⟩

include hg ha

/-- **A call that is not optional** does and answers the same for both hosts. -/
theorem hostCall_same {call : HostCall U} (hcall : call.optional = false) :
    (hostCall s call).1 = (hostCall s' call).1 ∧
      SameSession g (hostCall s call).2 (hostCall s' call).2 := by
  have hself : SameCore Set.univ g s'.world s'.world := h.core.symm.trans h.core
  cases call with
  | tick =>
      exact h.returned (vmTickWith_same hg ha h.left h.core)
        (vmTickWith_same hg ha h.right hself)
  | run life =>
      exact h.returned (vmRunWith_same hg ha h.left life h.core)
        (vmRunWith_same hg ha h.right life hself)
  | bitGet pos =>
      refine ⟨congrArg Answer.bit ?_, h⟩
      rw [vmBitGet_val, vmBitGet_val, h.core.mem_eq]
  | bitSet pos v => exact ⟨rfl, h.withWorld (h.core.write (writesMem_bitSet pos v))⟩
  | readUint pos width => exact ⟨congrArg Answer.word (h.core.readUint pos width), h⟩
  | writeUint pos width value =>
      exact ⟨rfl, h.withWorld (h.core.write (writesMem_writeUint pos width value))⟩
  | readInst ip => exact ⟨congrArg Answer.inst (h.core.readInst ip), h⟩
  | writeInst ip ins => exact ⟨rfl, h.withWorld (h.core.write (writesMem_writeInst ip ins))⟩
  | buildBootLoader ptr =>
      obtain ⟨hcode, hnext⟩ := h.core.build hg ha ptr
      exact ⟨congrArg Answer.code hcode, h.withWorld hnext⟩
  | setHooks callbacks => cases hcall
  | setStrictAlign32 v => cases hcall
  | checkInvariants => cases hcall

/-- An optional call leaves the core as it is. -/
theorem hostCall_optional {call : HostCall U} (hcall : call.optional = true)
    (hfair : call.Fair g) : SameSession g (hostCall s call).2 s' := by
  obtain ⟨hcb, hcb', hcore⟩ := h
  cases call with
  | setHooks callbacks => exact ⟨hfair, hcb', hcore⟩
  | setStrictAlign32 v =>
      exact ⟨hcb, hcb', ⟨hcore.left.geometry, hcore.left.space⟩, hcore.right, hcore.bits,
        hcore.inp, hcore.out, hcore.tickCounter⟩
  | checkInvariants =>
      have htests := strictAlign_tests hg ha hcore.left
      refine ⟨hcb, hcb', ?_⟩
      show SameCore Set.univ g (vmInvariantsStrictAlign32Check s.world).val.2 s'.world
      by_cases hpass : CheckPasses g s.world.vm.mem
      · rw [htests.pass hpass]
        exact hcore
      · obtain ⟨e, lines, hdiag⟩ := (htests.fail hpass).2
        rw [hdiag]
        exact ⟨⟨hcore.left.geometry, hcore.left.space⟩, hcore.right, hcore.bits, hcore.inp,
          hcore.out, hcore.tickCounter⟩
  | _ => cases hcall

/-- A session, and the session without its optional calls. -/
theorem session_same {calls : List (HostCall U)} (hcalls : ∀ call ∈ calls, call.Fair g) :
    ((session calls s).1.filter fun entry => !entry.1.optional) =
        (session (calls.filter fun call => !call.optional) s').1 ∧
      SameSession g (session calls s).2
        (session (calls.filter fun call => !call.optional) s').2 := by
  induction calls generalizing s s' with
  | nil => exact ⟨rfl, h⟩
  | cons call calls ih =>
      obtain ⟨hfair, hrest⟩ := List.forall_mem_cons.mp hcalls
      cases hcall : call.optional with
      | true =>
          obtain ⟨hlog, hcore⟩ := ih (hostCall_optional hg ha h hcall hfair) hrest
          rw [List.filter_cons_of_neg (by simp [hcall]), session,
            List.filter_cons_of_neg (by simp [hcall])]
          exact ⟨hlog, hcore⟩
      | false =>
          obtain ⟨hanswer, hnext⟩ := hostCall_same hg ha h hcall
          obtain ⟨hlog, hcore⟩ := ih hnext hrest
          rw [List.filter_cons_of_pos (by simp [hcall]), session, session,
            List.filter_cons_of_pos (by simp [hcall]), hanswer]
          exact ⟨congrArg _ hlog, hcore⟩

end Calls

/-- Callbacks that count the copies. -/
def copyCounter : Callbacks Nat :=
  { Callbacks.none with noteCopy := some fun _ _ _ s => (s.1 + 1, s.2) }

theorem copyCounter_recording : copyCounter.Recording where
  tickBegin := by rintro f ⟨⟩
  noteCopy := by
    rintro f ⟨⟩ dst n src s
    exact ⟨rfl, rfl, rfl⟩
  tickEnd := by rintro f ⟨⟩

/-- A session that builds the boot layer, counts its copies and calls the check, which
fails: the machine has no room for the table. -/
def checkedCalls : List (HostCall Nat) :=
  [.tick, .setHooks copyCounter, .checkInvariants, .buildBootLoader 128, .run 2,
    .setStrictAlign32 1, .readUint 8 8]

def equippedBoot : Host Nat :=
  ⟨.none, 0, (bareWorld (bootVm 3)).withVm ((bootVm 3).setStrictAlign32 1)⟩

theorem checkedCalls_fair : ∀ call ∈ checkedCalls, call.Fair (bootVm 3).toVmGeometry := by
  unfold checkedCalls
  simp only [List.forall_mem_cons, HostCall.Fair]
  exact ⟨trivial, copyCounter_recording, trivial, by decide, trivial, trivial, by decide,
    fun call hcall => absurd hcall List.not_mem_nil⟩

end SpaceVerifier.Runtime
