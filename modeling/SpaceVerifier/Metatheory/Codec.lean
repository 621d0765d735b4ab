import SpaceVerifier.Metatheory.Geometry

/-!
# The bit primitives and the instruction codec of the runtime

One specification lemma per function: its value as a function of the memory
read as a bit string, and the accesses it makes. The loops of `vm_read_uint`
and `vm_write_uint` become the fields of `uintAt` and `Mem.writeField`.
-/

namespace SpaceVerifier.Runtime

open Foundation Foundation.Traced

/-! ## Machines that differ in memory only -/

namespace Vm

variable (vm : Vm) (m m' : Mem)

@[simp] theorem mem_withMem : (vm.withMem m).mem = m := rfl

@[simp] theorem toVmGeometry_withMem :
    (vm.withMem m).toVmGeometry = vm.toVmGeometry := rfl

@[simp] theorem withMem_withMem : (vm.withMem m).withMem m' = vm.withMem m' := rfl

theorem withMem_mem {vm : Vm} (h : vm.space.isSome) : vm.withMem vm.mem = vm := by
  obtain ⟨m, hm⟩ := Option.isSome_iff_exists.mp h
  cases vm
  simp_all [withMem, mem]

end Vm

/-! ## Accesses below a bound -/

/-- A bit or field access inside `[0, limit)`. -/
def Event.Control (limit : Nat) : Event → Prop
  | .bitGet pos => pos < limit
  | .bitSet pos => pos < limit
  | .readUint pos width => pos + width ≤ limit
  | .writeUint pos width => pos + width ≤ limit
  | _ => False

theorem Event.Control.mono {limit limit' : Nat} {e : Event} (h : e.Control limit)
    (hle : limit ≤ limit') : e.Control limit' := by
  cases e <;> simp only [Event.Control] at * <;> omega

/-! ## Single bits -/

theorem vmBitGet_val (vm : Vm) (pos : Nat) :
    (vmBitGet vm pos).val = vm.mem.bit pos :=
  shift_and_one_ne_zero _ (Nat.mod_lt _ (by decide))

theorem vmBitSet_val (vm : Vm) (pos : Nat) (v : Bool) :
    (vmBitSet vm pos v).val = vm.withMem (vm.mem.setBit pos v) := rfl

theorem vmBitGet_control {vm : Vm} {pos limit : Nat} (h : pos < limit) :
    (vmBitGet vm pos).All (Event.Control limit) :=
  All.bind ((all_emit _).mpr h) (all_pure _)

theorem vmBitSet_control {vm : Vm} {pos limit : Nat} {v : Bool}
    (h : pos < limit) : (vmBitSet vm pos v).All (Event.Control limit) :=
  All.bind ((all_emit _).mpr h) (all_pure _)

/-! ## Fields -/

/-- A bit shifted in at the low end. -/
theorem shiftLeft_or_toNat (v : Nat) (b : Bool) : (v <<< 1) ||| b.toNat = 2 * v + b.toNat := by
  have hb : b.toNat < 2 ^ 1 := b.toNat_lt
  rw [← Nat.shiftLeft_add_eq_or_of_lt hb, Nat.shiftLeft_eq, pow_one, Nat.mul_comm]

theorem shiftLeft_or_bit {v i : Nat} (b : Bool) (hv : v < 2 ^ i) (hi : i < 64) :
    ((v <<< 1) ||| b.toNat) % 2 ^ 64 = 2 * v + b.toNat := by
  have hb : b.toNat < 2 ^ 1 := b.toNat_lt
  have hpow : (2 : Nat) ^ (i + 1) ≤ 2 ^ 64 :=
    Nat.pow_le_pow_right (by decide) (by omega)
  rw [shiftLeft_or_toNat]
  refine Nat.mod_eq_of_lt ?_
  rw [pow_succ] at hpow hb
  omega

theorem vmReadUint_val (vm : Vm) {pos w : Nat} (hw : w ≤ 64)
    (hpos : pos + w ≤ 2 ^ 64) :
    (vmReadUint vm pos w).val = uintAt vm.mem.bit pos w := by
  unfold vmReadUint
  rw [val_bind, val_ite]
  rcases Nat.eq_zero_or_pos w with rfl | hw0
  · rfl
  rw [if_neg (by omega)]
  -- after `i` rounds the accumulator is the field of the first `i` bits
  refine forUp_inv (fun i v => v = uintAt vm.mem.bit pos i) rfl ?_
  rintro i hi v rfl
  show ((uintAt vm.mem.bit pos i <<< 1) |||
    (vmBitGet vm (add64 pos i)).val.toNat) % 2 ^ 64 = _
  rw [vmBitGet_val, add64_of_lt (by omega),
    shiftLeft_or_bit _ (uintAt_lt vm.mem.bit pos i) (by omega), uintAt]

theorem vmReadUint_control {vm : Vm} {pos w limit : Nat}
    (h : pos + w ≤ limit) (hlimit : limit ≤ 2 ^ 64) :
    (vmReadUint vm pos w).All (Event.Control limit) := by
  unfold vmReadUint
  refine All.bind ((all_emit _).mpr h) ?_
  split
  · exact all_pure _
  · refine forUp_all fun i hi v => All.bind (vmBitGet_control ?_) (all_pure _)
    rw [add64_of_lt (by omega)]
    omega

theorem decide_shiftRight_and_one (v k : Nat) :
    decide ((v >>> k) &&& 1 ≠ 0) = v.testBit k := by
  rw [Nat.testBit_eq_decide_div_mod_eq, Nat.and_one_is_mod,
    Nat.shiftRight_eq_div_pow, Bool.eq_iff_iff]
  simp

/-- The field after the first `i` of its bits are written. -/
theorem writeField_succ (m : Mem) {pos i : Nat} (f : Nat → Bool) :
    (Mem.ofBits fun p => if pos ≤ p ∧ p < pos + i then f p else m.bit p).setBit
        (pos + i) (f (pos + i)) =
      Mem.ofBits fun p =>
        if pos ≤ p ∧ p < pos + (i + 1) then f p else m.bit p := by
  apply Mem.ext_bit
  intro p
  rw [Mem.bit_setBit, Mem.bit_ofBits, Mem.bit_ofBits]
  by_cases hp : p = pos + i
  · subst hp
    rw [if_pos rfl, if_pos (by omega)]
  · rw [if_neg hp]
    congr 1
    exact propext (by omega)

theorem vmWriteUint_val {vm : Vm} (hs : vm.space.isSome) {pos w : Nat} (v : Nat)
    (hw0 : 0 < w) (hw : w ≤ 64) (hpos : pos + w ≤ 2 ^ 64) :
    (vmWriteUint vm pos w v).val = vm.withMem (vm.mem.writeField pos w v) := by
  unfold vmWriteUint
  rw [val_bind, val_ite, if_neg (by omega)]
  refine forUp_inv (fun i vm' => vm' = vm.withMem (Mem.ofBits fun p =>
    if pos ≤ p ∧ p < pos + i then v.testBit (w - 1 - (p - pos))
    else vm.mem.bit p)) ?_ ?_
  · have hm : (Mem.ofBits fun p => if pos ≤ p ∧ p < pos + 0 then
        v.testBit (w - 1 - (p - pos)) else vm.mem.bit p) = vm.mem := by
      apply Mem.ext_bit
      intro p
      rw [Mem.bit_ofBits, if_neg (by omega)]
    rw [hm, Vm.withMem_mem hs]
  · rintro i hi _ rfl
    rw [vmBitSet_val, add64_of_lt (by omega), decide_shiftRight_and_one,
      Vm.mem_withMem, Vm.withMem_withMem, ← writeField_succ,
      show pos + i - pos = i by omega]

theorem vmWriteUint_control {vm : Vm} {pos w v limit : Nat}
    (h : pos + w ≤ limit) (hlimit : limit ≤ 2 ^ 64) :
    (vmWriteUint vm pos w v).All (Event.Control limit) := by
  unfold vmWriteUint
  refine All.bind ((all_emit _).mpr h) ?_
  split
  · exact all_pure _
  · refine forUp_all fun i hi vm => vmBitSet_control ?_
    rw [add64_of_lt (by omega)]
    omega

/-! ## Instructions -/

/-- The instruction spelled by the three `a`-bit fields at `ip`. -/
def instAt (b : Nat → Bool) (ip a : Nat) : VmInst :=
  { n := uintAt b ip a, dst := uintAt b (ip + a) a, src := uintAt b (ip + 2 * a) a }

theorem instAt_congr {b b' : Nat → Bool} {ip a : Nat}
    (h : ∀ p, ip ≤ p → p < ip + 3 * a → b p = b' p) :
    instAt b ip a = instAt b' ip a := by
  have hfield : ∀ off, off + a ≤ 3 * a →
      uintAt b (ip + off) a = uintAt b' (ip + off) a := by
    intro off hoff
    refine uintAt_congr fun i hi => h _ (by omega) (by omega)
  have hn := hfield 0 (by omega)
  have hdst := hfield a (by omega)
  have hsrc := hfield (2 * a) (by omega)
  simp only [Nat.add_zero] at hn
  rw [instAt, instAt, hn, hdst, hsrc]

/-- Where no bit is set, every field is zero. -/
theorem instAt_eq_zero {b : Nat → Bool} {ip a : Nat}
    (h : ∀ p, ip ≤ p → p < ip + 3 * a → b p = false) : instAt b ip a = ⟨0, 0, 0⟩ := by
  unfold instAt
  rw [uintAt_eq_zero fun i hi => h _ (by omega) (by omega),
    uintAt_eq_zero fun i hi => h _ (by omega) (by omega),
    uintAt_eq_zero fun i hi => h _ (by omega) (by omega)]

/-- The memory with an instruction of three `a`-bit fields at `ip`. -/
def writeInst (m : Mem) (ip a : Nat) (ins : VmInst) : Mem :=
  ((m.writeField ip a ins.n).writeField (ip + a) a ins.dst).writeField
    (ip + 2 * a) a ins.src

theorem bit_writeInst_of_notMem (m : Mem) {ip a p : Nat} (ins : VmInst)
    (h : ¬ (ip ≤ p ∧ p < ip + 3 * a)) :
    (writeInst m ip a ins).bit p = m.bit p := by
  unfold writeInst
  rw [Mem.bit_writeField_of_notMem _ (by omega),
    Mem.bit_writeField_of_notMem _ (by omega),
    Mem.bit_writeField_of_notMem _ (by omega)]

/-- The instruction that `a`-bit fields can hold of `ins`. -/
def VmInst.truncate (ins : VmInst) (a : Nat) : VmInst :=
  { n := ins.n % 2 ^ a, dst := ins.dst % 2 ^ a, src := ins.src % 2 ^ a }

theorem VmInst.truncate_eq {ins : VmInst} {a : Nat} (hn : ins.n < 2 ^ a)
    (hdst : ins.dst < 2 ^ a) (hsrc : ins.src < 2 ^ a) : ins.truncate a = ins := by
  unfold truncate
  rw [Nat.mod_eq_of_lt hn, Nat.mod_eq_of_lt hdst, Nat.mod_eq_of_lt hsrc]

/-- The fields hold the low bits of what was written: no write reaches into
the two other fields. -/
theorem instAt_writeInst_truncate (m : Mem) (ip a : Nat) (ins : VmInst) :
    instAt (writeInst m ip a ins).bit ip a = ins.truncate a := by
  have hn : uintAt (writeInst m ip a ins).bit ip a = ins.n % 2 ^ a := by
    rw [← uintAt_writeField_mod m ip]
    refine uintAt_congr fun i hi => ?_
    unfold writeInst
    rw [Mem.bit_writeField_of_notMem _ (by omega),
      Mem.bit_writeField_of_notMem _ (by omega)]
  have hdst : uintAt (writeInst m ip a ins).bit (ip + a) a = ins.dst % 2 ^ a := by
    rw [← uintAt_writeField_mod (m.writeField ip a ins.n) (ip + a)]
    refine uintAt_congr fun i hi => ?_
    unfold writeInst
    rw [Mem.bit_writeField_of_notMem _ (by omega)]
  have hsrc : uintAt (writeInst m ip a ins).bit (ip + 2 * a) a = ins.src % 2 ^ a :=
    uintAt_writeField_mod _ _ _ _
  rw [instAt, hn, hdst, hsrc, VmInst.truncate]

/-- What was written is read back. -/
theorem instAt_writeInst (m : Mem) {ip a : Nat} {ins : VmInst}
    (hn : ins.n < 2 ^ a) (hdst : ins.dst < 2 ^ a) (hsrc : ins.src < 2 ^ a) :
    instAt (writeInst m ip a ins).bit ip a = ins := by
  rw [instAt_writeInst_truncate, VmInst.truncate_eq hn hdst hsrc]

/-- Writing back the instruction at `ip` changes nothing. -/
theorem writeInst_instAt (m : Mem) (ip a : Nat) :
    writeInst m ip a (instAt m.bit ip a) = m := by
  unfold writeInst instAt
  simp only [writeField_uintAt]

section Codec

variable {vm : Vm} (hg : vm.toVmGeometry.Wf)
include hg

theorem vmReadInst_val {ip : Nat} (hip : ip + 3 * vm.addrBits ≤ 2 ^ 64) :
    (vmReadInst vm ip).val = instAt vm.mem.bit ip vm.addrBits := by
  have ha := hg.addrBits_le
  have ha0 := hg.addrBits_ge
  unfold vmReadInst
  simp only [val_bind, val_pure]
  rw [hg.nBits_eq, hg.offN_eq, hg.offDst_eq, hg.offSrc_eq,
    add64_of_lt (by omega), add64_of_lt (by omega), add64_of_lt (by omega),
    vmReadUint_val vm ha (by omega), vmReadUint_val vm ha (by omega),
    vmReadUint_val vm ha (by omega)]
  rfl

theorem vmReadInst_control {ip limit : Nat}
    (hip : ip + 3 * vm.addrBits ≤ limit) (hlimit : limit ≤ 2 ^ 64) :
    (vmReadInst vm ip).All (Event.Control limit) := by
  have ha0 := hg.addrBits_ge
  unfold vmReadInst
  rw [hg.nBits_eq, hg.offN_eq, hg.offDst_eq, hg.offSrc_eq,
    add64_of_lt (by omega), add64_of_lt (by omega), add64_of_lt (by omega)]
  exact All.bind (vmReadUint_control (by omega) hlimit)
    (All.bind (vmReadUint_control (by omega) hlimit)
      (All.bind (vmReadUint_control (by omega) hlimit) (all_pure _)))

theorem vmWriteInst_val (hs : vm.space.isSome) {ip : Nat} (ins : VmInst)
    (hip : ip + 3 * vm.addrBits ≤ 2 ^ 64) :
    (vmWriteInst vm ip ins).val =
      vm.withMem (writeInst vm.mem ip vm.addrBits ins) := by
  have ha := hg.addrBits_le
  have ha0 := hg.addrBits_ge
  unfold vmWriteInst
  simp only [val_bind]
  rw [hg.nBits_eq, hg.offN_eq, add64_of_lt (by omega),
    vmWriteUint_val hs _ (by omega) ha (by omega)]
  simp only [Vm.toVmGeometry_withMem]
  rw [hg.offDst_eq, add64_of_lt (by omega),
    vmWriteUint_val rfl _ (by omega) ha (by omega)]
  simp only [Vm.withMem_withMem, Vm.toVmGeometry_withMem, Vm.mem_withMem]
  rw [hg.offSrc_eq, add64_of_lt (by omega),
    vmWriteUint_val rfl _ (by omega) ha (by omega)]
  rfl

/-- Slot numbers are `unsigned`; even those behind the last slot do not wrap. -/
theorem vmProcSlotIp_eq {slot : Nat} (hslot : slot < 2 ^ 32) :
    vmProcSlotIp vm slot = slot * (3 * vm.addrBits) ∧
      slot * (3 * vm.addrBits) < 2 ^ 40 := by
  have ha := hg.addrBits_le
  have hlt : slot * (3 * vm.addrBits) < 2 ^ 40 :=
    calc slot * (3 * vm.addrBits) ≤ slot * 192 := Nat.mul_le_mul_left _ (by omega)
      _ < 2 ^ 40 := by omega
  refine ⟨?_, hlt⟩
  unfold vmProcSlotIp
  rw [hg.processorStart_eq, hg.instrBits_eq, Nat.mod_eq_of_lt (by omega),
    add64_of_lt (by omega), Nat.zero_add]

end Codec

/-! ## The codec at any address -/

/-- The codec of `vm` at bit address `ip`: it returns what fits of what was
written, it is local, and writing back what was read changes nothing. -/
structure CodecLaws (vm : Vm) (ip : Nat) : Prop where
  read_write : ∀ ins, (vmReadInst (vmWriteInst vm ip ins).val ip).val =
    ins.truncate vm.addrBits
  exact : ∀ ins : VmInst, ins.n < 2 ^ vm.addrBits → ins.dst < 2 ^ vm.addrBits →
    ins.src < 2 ^ vm.addrBits → (vmReadInst (vmWriteInst vm ip ins).val ip).val = ins
  frame : ∀ ins p, ¬ (ip ≤ p ∧ p < ip + vm.instrBits) →
    (vmWriteInst vm ip ins).val.mem.bit p = vm.mem.bit p
  others : ∀ ins ip', ip' + vm.instrBits ≤ vm.spaceBits →
    ip' + vm.instrBits ≤ ip ∨ ip + vm.instrBits ≤ ip' →
    (vmReadInst (vmWriteInst vm ip ins).val ip').val = (vmReadInst vm ip').val
  write_read : (vmWriteInst vm ip (vmReadInst vm ip).val).val = vm

theorem VmGeometry.Wf.codec {vm : Vm} (hg : vm.toVmGeometry.Wf)
    (hs : vm.space.isSome) {ip : Nat} (hip : ip + vm.instrBits ≤ vm.spaceBits) :
    CodecLaws vm ip := by
  have hbits := hg.spaceBits_le
  have hinstr := hg.instrBits_eq
  -- inside the space no sum of the codec wraps
  have hsmall : ∀ {ip'}, ip' + vm.instrBits ≤ vm.spaceBits →
      ip' + 3 * vm.addrBits ≤ 2 ^ 64 := fun h => by omega
  have hwrite : ∀ ins, (vmWriteInst vm ip ins).val =
      vm.withMem (writeInst vm.mem ip vm.addrBits ins) :=
    fun ins => vmWriteInst_val hg hs ins (hsmall hip)
  have hread : ∀ (m : Mem) {ip'}, ip' + vm.instrBits ≤ vm.spaceBits →
      (vmReadInst (vm.withMem m) ip').val = instAt m.bit ip' vm.addrBits :=
    fun m ip' h => @vmReadInst_val (vm.withMem m) hg ip' (hsmall h)
  have hreadWrite : ∀ ins, (vmReadInst (vmWriteInst vm ip ins).val ip).val =
      ins.truncate vm.addrBits := by
    intro ins
    rw [hwrite, hread _ hip, instAt_writeInst_truncate]
  constructor
  · exact hreadWrite
  · intro ins hn hdst hsrc
    rw [hreadWrite, VmInst.truncate_eq hn hdst hsrc]
  · intro ins p hp
    rw [hwrite, Vm.mem_withMem, bit_writeInst_of_notMem]
    rwa [← hinstr]
  · intro ins ip' hip' happart
    rw [hwrite, hread _ hip', vmReadInst_val hg (hsmall hip')]
    apply instAt_congr
    intro p h₁ h₂
    exact bit_writeInst_of_notMem _ _ (by omega)
  · rw [hwrite, vmReadInst_val hg (hsmall hip), writeInst_instAt, Vm.withMem_mem hs]

/-- **The instruction codec round-trips and is local**, at every bit address of
the space of an accepted machine, aligned or not. -/
theorem accepted_codec {calloc : Nat → Bool} {S P : Nat} {vm : Vm}
    (h : Accepted calloc S P vm) (hlimit : CallocLimit calloc (2 ^ 61)) (m : Mem)
    {ip : Nat} (hip : ip + vm.instrBits ≤ vm.spaceBits) :
    CodecLaws (vm.withMem m) ip := by
  obtain ⟨hg, -, -⟩ := h.wf hlimit
  exact @VmGeometry.Wf.codec (vm.withMem m) hg rfl ip hip

/-- At the last address of the smallest space, whatever it holds. -/
theorem accepted_codec_small : CodecLaws (smallVm.withMem fun _ => 0xA5) 104 :=
  accepted_codec smallVm_accepted (hostCalloc_limit.mono (by decide)) _ (by decide)

end SpaceVerifier.Runtime
