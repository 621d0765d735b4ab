import SpaceVerifier.Foundation.ExceptList
import SpaceVerifier.Metatheory.Codec
import SpaceVerifier.Verifier.ImageReader
import Mathlib.Data.Int.Log
import Mathlib.Data.Rat.Floor

/-!
# Verifier and runtime decode the same program

`_read_bits` slices bytes, forms one big-endian integer, shifts and masks;
`vm_read_uint` accumulates single bits. Both are the field of `uintAt` at the
same position, and the two derivations of the address width agree.
-/

namespace SpaceVerifier.Verifier

open Foundation SpaceVerifier.Runtime

/-! ## Images as memories -/

/-- A memory that starts with the bytes of an image. -/
def imageMem (data : List Byte) : Mem := fun i => data.getD i 0

theorem imageMem_replicate (n : Nat) : imageMem (List.replicate n 0) = fun _ => 0 := by
  funext i
  unfold imageMem
  rw [List.getD_eq_getElem?_getD, List.getElem?_replicate]
  split <;> rfl

/-- The first `data.length` bytes of `m` are `data`. -/
def Holds (m : Mem) (data : List Byte) : Prop :=
  ∀ i < data.length, m i = imageMem data i

theorem Holds.bit_eq {m : Mem} {data : List Byte} (h : Holds m data) {p : Nat}
    (hp : p < 8 * data.length) : m.bit p = (imageMem data).bit p := by
  rw [Mem.bit, Mem.bit, h (p / 8) (by omega)]

/-- A slice of the image as a run of bytes of its memory: a slice that would run
past the end has only the bytes that are there. -/
theorem slice_eq_bytesAt (data : List Byte) (s n : Nat) :
    (data.drop s).take n = bytesAt (imageMem data) s (min n (data.length - s)) := by
  apply List.ext_getElem
  · simp only [List.length_take, List.length_drop, length_bytesAt]
  · intro i hi _
    have hlt : s + i < data.length := by
      simp only [List.length_take, List.length_drop] at hi
      omega
    simp [bytesAt, imageMem, hlt]

/-! ## `_read_bits` -/

theorem fromBytesBE_append (chunk : List Byte) (b : Byte) :
    fromBytesBE (chunk ++ [b]) = fromBytesBE chunk * 256 + b.toNat := by
  simp [fromBytesBE]

/-- A big-endian integer is the field of all its bits. -/
theorem fromBytesBE_bytesAt (m : Mem) (s n : Nat) :
    fromBytesBE (bytesAt m s n) = uintAt m.bit (8 * s) (8 * n) := by
  induction n with
  | zero => rfl
  | succ n ih =>
      have hsplit : bytesAt m s (n + 1) = bytesAt m s n ++ [m (s + n)] := by
        simp [bytesAt, List.range_succ]
      have hbyte := uintAt_byte m (s + n)
      rw [Nat.mul_add] at hbyte
      rw [hsplit, fromBytesBE_append, ih, show 8 * (n + 1) = 8 * n + 8 by omega,
        uintAt_add, hbyte]
      norm_num

/-- `_read_bits` reads the field at `start`, wherever its bytes begin and end. -/
theorem readBits_eq {data : List Byte} (start : Nat) {w : Nat} (hw0 : 0 < w)
    (hw : w ≤ 64) (hfit : start + w ≤ 8 * data.length) :
    readBits data start w = uintAt (imageMem data).bit start w := by
  unfold readBits
  rw [if_neg (by omega), if_neg (by omega)]
  dsimp only [Int.toNat_natCast]
  generalize hn : (start + w - 1) / 8 - start / 8 + 1 = nBytes
  -- the slice holds the field with `start % 8` bits above it and `shift` below
  have hcover : start % 8 + w ≤ 8 * nBytes := by omega
  have hin : start / 8 + nBytes ≤ data.length := by omega
  rw [slice_eq_bytesAt, min_eq_left (by omega), fromBytesBE_bytesAt]
  generalize hshift : 8 * nBytes - start % 8 - w = shift
  rw [show 8 * nBytes = start % 8 + w + shift by omega]
  have hshr : (if shift > 0 then
      uintAt (imageMem data).bit (8 * (start / 8)) (start % 8 + w + shift) >>> shift
      else uintAt (imageMem data).bit (8 * (start / 8)) (start % 8 + w + shift)) =
      uintAt (imageMem data).bit (8 * (start / 8)) (start % 8 + w) := by
    split
    · exact uintAt_shiftRight _ _ _ _
    · rw [show shift = 0 by omega, Nat.add_zero]
  rw [hshr, uintAt_and_mask, show 8 * (start / 8) + start % 8 = start by omega]

/-! ## The derived configuration -/

/-- A configuration with the two sizes of a machine and `addr_bits` null. -/
def Config.ofSizes (S P : Nat) (protectedRegions allowedRegions : List Region) :
    Config :=
  { spaceBytes := .int S, processorN := .int P, addrBits := .none,
    protectedRegions, allowedRegions }

/-- The same configuration after `_resolve`, `math.log2` being exact. -/
def Config.derived (S P : Nat) (protectedRegions allowedRegions : List Region) :
    Config :=
  { spaceBytes := .int S, processorN := .int P,
    addrBits := .int (addrWidth (8 * S)), protectedRegions, allowedRegions }

theorem deriveAddrBits_eq {S : Nat} (hS : 0 < S) :
    deriveAddrBits (Int.clog 2) (.int (S * 2 ^ 3)) = .ok (addrWidth (8 * S)) := by
  have hcast : (((S : Int) * 2 ^ 3 : Int) : ℚ) = ((8 * S : ℕ) : ℚ) := by
    push_cast
    ring
  have hlog : (PyVal.int (S * 2 ^ 3)).mathCeilLog2 (Int.clog 2) =
      .ok (Nat.clog 2 (8 * S) : Int) := by
    show Except.ok (Int.clog 2 (((S : Int) * 2 ^ 3 : Int) : ℚ)) = _
    rw [hcast, Int.clog_natCast]
  have hpos : ¬ (S : Int) * 2 ^ 3 ≤ 0 := by omega
  unfold deriveAddrBits
  rw [PyVal.le_int, hlog, decide_eq_false hpos]
  show Except.ok (if ((Nat.clog 2 (8 * S) : Int) + 7) / 8 * 8 < 8 then 8 else
    ((Nat.clog 2 (8 * S) : Int) + 7) / 8 * 8) = _
  congr 1
  unfold addrWidth
  split <;> omega

theorem resolve_ofSizes {S : Nat} (hS : 0 < S) (P : Nat)
    (prot allowed : List Region) :
    (Config.ofSizes S P prot allowed).resolve (Int.clog 2) =
      .ok (Config.derived S P prot allowed) := by
  show (do
    let a ← deriveAddrBits (Int.clog 2) (.int (S * 2 ^ 3))
    return { Config.ofSizes S P prot allowed with addrBits := .int a }) = _
  rw [deriveAddrBits_eq hS]
  rfl

/-! ## Instructions -/

/-- A decoded instruction as the verifier holds it. -/
def Instruction.ofInst (slot : Nat) (ins : VmInst) : Instruction :=
  { slot, n := ins.n, dst := ins.dst, src := ins.src }

theorem readInstruction_eq {cfg : Config} {a : Nat} (hcfg : cfg.addrBits = .int a)
    (ha0 : 0 < a) (ha : a ≤ 64) {data : List Byte} {slot : Nat}
    (hfit : slot * (3 * a) + 3 * a ≤ 8 * data.length) :
    readInstruction cfg data slot = .ok
      (Instruction.ofInst slot (instAt (imageMem data).bit (slot * (3 * a)) a)) := by
  have hstart : (slot : Int) * (3 * a) = ((slot * (3 * a) : ℕ) : Int) := by
    push_cast
    ring
  have hn : slot * (3 * a) + a ≤ 8 * data.length := by omega
  have hdst : slot * (3 * a) + a + a ≤ 8 * data.length := by omega
  have hsrc : slot * (3 * a) + 2 * a + a ≤ 8 * data.length := by omega
  unfold readInstruction Config.instrBits Config.offDst Config.offSrc
    Config.nBits Config.offN
  rw [hcfg]
  show Except.ok (Instruction.mk slot
    (readBits data ((slot : Int) * (3 * a) + 0).toNat a)
    (readBits data ((slot : Int) * (3 * a) + a).toNat a)
    (readBits data ((slot : Int) * (3 * a) + (a + a)).toNat a)) = _
  rw [hstart, show ((slot * (3 * a) : ℕ) + 0 : Int).toNat = slot * (3 * a) by omega,
    show ((slot * (3 * a) : ℕ) + a : Int).toNat = slot * (3 * a) + a by omega,
    show ((slot * (3 * a) : ℕ) + (a + a) : Int).toNat = slot * (3 * a) + 2 * a by
      omega,
    readBits_eq _ ha0 ha hn, readBits_eq _ ha0 ha hdst, readBits_eq _ ha0 ha hsrc]
  rfl

/-- The program an image holds: slot `i` is decoded at `i * 3a`. -/
def program (m : Mem) (a slots : Nat) : List Instruction :=
  (List.range slots).map fun slot =>
    Instruction.ofInst slot (instAt m.bit (slot * (3 * a)) a)

/-- `ImageReader.read` on an image that is long enough for its slots. -/
theorem read_eq {cfg : Config} {S P a : Nat} (hS : cfg.spaceBytes = .int S)
    (hP : cfg.processorN = .int P) (hcfg : cfg.addrBits = .int a) (ha0 : 0 < a)
    (ha : a ≤ 64) {data : List Byte} (hlen : S ≤ data.length)
    (hfit : P * (3 * a) ≤ 8 * data.length) :
    read cfg data = .ok (program (imageMem data) a P) := by
  have hnot : ¬ (data.length : Int) < S := by omega
  unfold read
  rw [hS, hP, PyVal.lt_int, decide_eq_false hnot]
  show (List.range P).mapM (readInstruction cfg data) = _
  refine mapM_ok fun slot hslot => ?_
  refine readInstruction_eq hcfg ha0 ha (Nat.le_trans ?_ hfit)
  rw [← Nat.succ_mul]
  exact Nat.mul_le_mul_right _ (List.mem_range.mp hslot)

section Machine

variable {vm : Vm} (hg : vm.toVmGeometry.Wf)
include hg

theorem spaceBytes_pos : 0 < vm.spaceBytes := by
  have hle := hg.workspaceBase_le
  rw [hg.workspaceBase_eq, hg.spaceBits_eq] at hle
  omega

/-- The image of a machine's space decodes to the program at its start. -/
theorem read_machine {data : List Byte} (hlen : data.length = vm.spaceBytes)
    (prot allowed : List Region) :
    read (Config.derived vm.spaceBytes vm.processorN prot allowed) data =
      .ok (program (imageMem data) vm.addrBits vm.processorN) := by
  have haddr : vm.addrBits = addrWidth (8 * vm.spaceBytes) := by
    rw [hg.addrBits_eq, hg.spaceBits_eq]
  have hproc := hg.processorBits_eq
  have hbase := hg.workspaceBase_eq
  have hle := hg.workspaceBase_le
  rw [hg.spaceBits_eq] at hle
  have ha0 := hg.addrBits_ge
  refine read_eq rfl rfl (by rw [haddr]; rfl) (by omega) hg.addrBits_le (by omega) ?_
  rw [← hproc]
  omega

/-- What the runtime fetches from slot `i` of a space that holds an image. -/
theorem fetch_machine {data : List Byte} (hlen : data.length = vm.spaceBytes)
    {m : Mem} (hm : Holds m data) {slot : Nat} (hslot : slot < vm.processorN) :
    (vmReadInst (vm.withMem m) (vmProcSlotIp (vm.withMem m) slot)).val =
      instAt (imageMem data).bit (slot * (3 * vm.addrBits)) vm.addrBits := by
  have hg' : (vm.withMem m).toVmGeometry.Wf := hg
  have hfit := hg.slot_le hslot
  have hbase := hg.workspaceBase_eq
  have hle := hg.workspaceBase_le
  have hbits := hg.spaceBits_le
  rw [(vmProcSlotIp_eq hg' (hslot.trans hg.processorN_lt)).1, vmReadInst_val hg' (by
    simp only [Vm.toVmGeometry_withMem]
    omega)]
  refine instAt_congr fun p hp hp' => hm.bit_eq ?_
  rw [hlen, ← hg.spaceBits_eq]
  simp only [Vm.toVmGeometry_withMem] at hp hp'
  omega

end Machine

/-- **The two decoders agree.** For every accepted machine the configuration
with its two sizes has the machine's widths and offsets, and every image of the
space decodes, slot by slot, to what the runtime reads from that memory. -/
theorem decoders_agree {calloc : Nat → Bool} {S P : Nat} {vm : Vm}
    (h : Accepted calloc S P vm) (hlimit : CallocLimit calloc (2 ^ 61))
    (prot allowed : List Region) :
    ∃ cfg, (Config.ofSizes S P prot allowed).resolve (Int.clog 2) = .ok cfg ∧
      cfg.addrBits = .int vm.addrBits ∧
      cfg.instrBits = .ok vm.instrBits ∧ cfg.nBits = .ok vm.nBits ∧
      cfg.offN = vm.offN ∧ cfg.offDst = .ok vm.offDst ∧
      cfg.offSrc = .ok vm.offSrc ∧
      ∀ (data : List Byte) (m : Mem), data.length = S → Holds m data →
        ∃ instrs, read cfg data = .ok instrs ∧ instrs.length = P ∧
          ∀ slot < P, instrs[slot]? = some (Instruction.ofInst slot
            (vmReadInst (vm.withMem m) (vmProcSlotIp (vm.withMem m) slot)).val) := by
  obtain ⟨hg, rfl, rfl⟩ := h.wf hlimit
  have haddr : vm.addrBits = addrWidth (8 * vm.spaceBytes) := by
    rw [hg.addrBits_eq, hg.spaceBits_eq]
  refine ⟨_, resolve_ofSizes (spaceBytes_pos hg) _ prot allowed, ?_, ?_, ?_, ?_,
    ?_, ?_, ?_⟩
  · rw [haddr]
    rfl
  · rw [hg.instrBits_eq, haddr]
    rfl
  · rw [hg.nBits_eq, haddr]
    rfl
  · rw [hg.offN_eq]
    rfl
  · rw [hg.offDst_eq, haddr]
    rfl
  · rw [hg.offSrc_eq, haddr, Nat.two_mul]
    rfl
  · intro data m hlen hm
    refine ⟨_, read_machine hg hlen prot allowed, by simp [program], ?_⟩
    intro slot hslot
    rw [fetch_machine hg hlen hm hslot]
    simp [program, hslot]

/-- The sixteen-byte image whose only instruction is `copy(n, dst, src)`. -/
def smallImage (n dst src : Byte) : List Byte :=
  [n, dst, src] ++ List.replicate 13 0

theorem decoders_agree_small :
    ∃ cfg, (Config.ofSizes 16 1 [] []).resolve (Int.clog 2) = .ok cfg ∧
      cfg.addrBits = .int 8 ∧ ∃ instrs, read cfg (smallImage 8 80 100) = .ok instrs ∧
        instrs[0]? = some { slot := 0, n := 8, dst := 80, src := 100 } := by
  obtain ⟨cfg, hcfg, haddr, -, -, -, -, -, hread⟩ :=
    decoders_agree smallVm_accepted (hostCalloc_limit.mono (by decide)) [] []
  obtain ⟨instrs, hinstrs, -, hslots⟩ := hread (smallImage 8 80 100)
    (imageMem (smallImage 8 80 100)) rfl fun _ _ => rfl
  exact ⟨cfg, hcfg, haddr, instrs, hinstrs, hslots 0 (by decide)⟩

end SpaceVerifier.Verifier
