import SpaceVerifier.Foundation.ExceptList
import SpaceVerifier.Metatheory.CoreMachine
import SpaceVerifier.Metatheory.HookTrace
import SpaceVerifier.Metatheory.TickDiagnosis
import SpaceVerifier.Verifier.Snapshot

/-!
# Snapshots of a machine

The file format: saving and loading are inverse, both ways. What it is for: a
machine saved between two ticks and loaded into another one goes on as the
first would have, as long as the copies that follow are sound.
-/

namespace SpaceVerifier.Verifier

open Foundation

/-! ## The format -/

theorem unpackQ_packQ {v : Int} {bs : List Byte} (h : packQ v = .ok bs) :
    bs.length = 8 ∧ ∃ n : Nat, v = n ∧ n < 2 ^ 64 ∧ unpackQ bs = .ok n := by
  unfold packQ at h
  split at h
  · next hv =>
      obtain rfl := Except.ok.inj h
      have hlt : v.toNat < 256 ^ 8 := by omega
      refine ⟨length_leBytes 8 _, v.toNat, by omega, by omega, ?_⟩
      rw [unpackQ, if_pos (length_leBytes 8 _), leValue_leBytes hlt]
  · cases h

theorem packQ_unpackQ {bs : List Byte} {n : Nat} (h : unpackQ bs = .ok n) :
    packQ n = .ok bs := by
  unfold unpackQ at h
  split at h
  · next hlen =>
      obtain rfl := Except.ok.inj h
      have hlt := leValue_lt bs
      rw [hlen] at hlt
      rw [packQ, if_pos (by omega), Int.toNat_natCast, ← hlen, leBytes_leValue]
  · cases h

section Files

variable {disk disk' : Disk} {path : String} {tick : Int} {data : List Byte}
  {spaceBytes : Option Int}

/-- When `save_snapshot` succeeds, and what it leaves. -/
theorem saveSnapshot_ok_iff : saveSnapshot disk tick data path spaceBytes = .ok disk' ↔
    sizeDiffers data spaceBytes = false ∧ disk.writable (disk.place path) = true ∧
      ∃ header, packQ tick = .ok header ∧ disk' = disk.write path (header ++ data) := by
  unfold saveSnapshot
  cases hsize : sizeDiffers data spaceBytes with
  | true => simp
  | false =>
      rw [if_neg Bool.false_ne_true]
      simp only [bind_eq_ok, true_and]
      constructor
      · rintro ⟨header, hpack, h⟩
        split at h
        · next hwrite => exact ⟨hwrite, header, hpack, (Except.ok.inj h).symm⟩
        · cases h
      · rintro ⟨hwrite, header, hpack, rfl⟩
        exact ⟨header, hpack, if_pos hwrite⟩

/-- When `load_snapshot` succeeds, and what it returns. -/
theorem loadSnapshot_ok_iff {tick : Nat} : loadSnapshot disk path = .ok (tick, data) ↔
    disk.readable (disk.place path) = true ∧ ∃ contents,
      disk.contents (disk.place path) = some contents ∧ unpackQ (contents.take 8) = .ok tick ∧
        data = contents.drop 8 := by
  unfold loadSnapshot
  cases hfile : disk.contents (disk.place path) with
  | none => simp
  | some contents =>
      simp only [Option.some.injEq, exists_eq_left']
      split
      · next hread =>
        simp only [bind_eq_ok, pure_eq_ok, Prod.mk.injEq, hread, true_and]
        constructor
        · rintro ⟨n, hn, rfl, rfl⟩
          exact ⟨hn, rfl⟩
        · rintro ⟨hn, rfl⟩
          exact ⟨tick, hn, rfl, rfl⟩
      · next hread => exact iff_of_false (by rintro ⟨⟩) fun h => hread h.1

theorem saveSnapshot_ok : (∃ disk', saveSnapshot disk tick data path spaceBytes = .ok disk') ↔
    sizeDiffers data spaceBytes = false ∧ 0 ≤ tick ∧ tick < 2 ^ 64 ∧
      disk.writable (disk.place path) = true := by
  simp only [saveSnapshot_ok_iff]
  constructor
  · rintro ⟨_, hsize, hwrite, header, hpack, -⟩
    obtain ⟨-, n, rfl, hn, -⟩ := unpackQ_packQ hpack
    exact ⟨hsize, by omega, by omega, hwrite⟩
  · rintro ⟨hsize, hnonneg, hlt, hwrite⟩
    exact ⟨_, hsize, hwrite, _, if_pos ⟨hnonneg, hlt⟩, rfl⟩

/-- What is saved is loaded again, by every path that leads to it, and no other file
is touched. -/
theorem load_of_save (h : saveSnapshot disk tick data path spaceBytes = .ok disk') :
    (disk.readable (disk.place path) = true → ∀ name, disk.place name = disk.place path →
      loadSnapshot disk' name = .ok (tick.toNat, data)) ∧
    ∀ name, disk.place name ≠ disk.place path →
      disk'.contents (disk'.place name) = disk.contents (disk.place name) := by
  obtain ⟨-, -, header, hpack, rfl⟩ := saveSnapshot_ok_iff.mp h
  obtain ⟨hlen, n, rfl, -, hunpack⟩ := unpackQ_packQ hpack
  refine ⟨fun hread name hname => ?_, fun name hname => Function.update_of_ne hname ..⟩
  have hfile : (disk.write path (header ++ data)).contents (disk.place name) =
      some (header ++ data) := by
    rw [hname]
    exact Function.update_self ..
  refine loadSnapshot_ok_iff.mpr ⟨?_, header ++ data, hfile, ?_, ?_⟩
  · show disk.readable (disk.place name) = true
    rw [hname, hread]
  · rw [← hlen, List.take_left, Int.toNat_natCast, hunpack]
  · rw [← hlen, List.drop_left]

theorem loadSnapshot_ok : (∃ r, loadSnapshot disk path = .ok r) ↔
    disk.readable (disk.place path) = true ∧
      ∃ contents, disk.contents (disk.place path) = some contents ∧ 8 ≤ contents.length := by
  constructor
  · rintro ⟨⟨tick, data⟩, hload⟩
    obtain ⟨hread, contents, hfile, hunpack, -⟩ := loadSnapshot_ok_iff.mp hload
    refine ⟨hread, contents, hfile, ?_⟩
    by_contra hshort
    rw [unpackQ, if_neg (by rw [List.length_take]; omega)] at hunpack
    cases hunpack
  · rintro ⟨hread, contents, hfile, hlen⟩
    refine ⟨(leValue (contents.take 8), contents.drop 8),
      loadSnapshot_ok_iff.mpr ⟨hread, contents, hfile, if_pos ?_, rfl⟩⟩
    rw [List.length_take]
    omega

/-- Saving what is there changes nothing. -/
theorem save_of_load {tick : Nat} (h : loadSnapshot disk path = .ok (tick, data))
    (hwrite : disk.writable (disk.place path) = true) :
    saveSnapshot disk tick data path none = .ok disk := by
  obtain ⟨-, contents, hfile, hunpack, rfl⟩ := loadSnapshot_ok_iff.mp h
  refine saveSnapshot_ok_iff.mpr ⟨rfl, hwrite, contents.take 8, packQ_unpackQ hunpack, ?_⟩
  rw [List.take_append_drop, Disk.write, ← hfile, Function.update_eq_self]

end Files

/-- **Snapshots round-trip.** A save succeeds exactly on a size that is not
contradicted, a 64-bit counter and a path that can be written; it is loaded as it was
saved, under every name of the file that can be read, and no other file is touched. A
load succeeds exactly on a readable file of eight bytes or more, and saving what it
returns to the same path changes nothing. -/
theorem snapshot_round_trip (disk : Disk) (path : String) :
    (∀ (tick : Int) (data : List Byte) (spaceBytes : Option Int),
      ((∃ disk', saveSnapshot disk tick data path spaceBytes = .ok disk') ↔
        sizeDiffers data spaceBytes = false ∧ 0 ≤ tick ∧ tick < 2 ^ 64 ∧
          disk.writable (disk.place path) = true) ∧
      ∀ disk', saveSnapshot disk tick data path spaceBytes = .ok disk' →
        (disk.readable (disk.place path) = true → ∀ name, disk.place name = disk.place path →
          loadSnapshot disk' name = .ok (tick.toNat, data)) ∧
        ∀ name, disk.place name ≠ disk.place path →
          disk'.contents (disk'.place name) = disk.contents (disk.place name)) ∧
    ((∃ r, loadSnapshot disk path = .ok r) ↔
      disk.readable (disk.place path) = true ∧
        ∃ contents, disk.contents (disk.place path) = some contents ∧ 8 ≤ contents.length) ∧
    ∀ tick data, loadSnapshot disk path = .ok (tick, data) →
      disk.writable (disk.place path) = true →
        saveSnapshot disk tick data path none = .ok disk :=
  ⟨fun _ _ _ => ⟨saveSnapshot_ok, fun _ => load_of_save⟩, loadSnapshot_ok,
    fun _ _ => save_of_load⟩

end SpaceVerifier.Verifier

namespace SpaceVerifier.Runtime

open Foundation SpaceVerifier.Verifier

/-! ## Machines saved and resumed -/

/-- The bytes of the space. -/
def Vm.dump (vm : Vm) : List Byte := bytesAt vm.mem 0 vm.spaceBytes

/-- The machine with the space and the tick counter of a snapshot. -/
def Vm.restore (vm : Vm) (snap : Nat × List Byte) : Vm :=
  { vm.withMem (storeBytes vm.mem 0 snap.2) with tickCounter := snap.1 }

/-- Every copy of the tick is sound. -/
def TickExact (w : World) : Prop := ∀ i < slotsRun w, (slotIns (served w).vm i).Exact

instance (w : World) : Decidable (TickExact w) :=
  inferInstanceAs (Decidable (∀ i < slotsRun w, _))

theorem TickExact.local {g : VmGeometry} (hg : g.Wf) (ha : g.addrBits ≤ 56) {w : World}
    (hw : Ready g w) (h : TickExact w) : TickLocal (Set.Iio g.spaceBits) w := by
  intro i hi hn
  have hlt : i < g.processorN :=
    hi.trans_le ((slotsRun_le w).trans hw.served.processorN.le)
  obtain ⟨hsrc, hdst⟩ := slotIns_inside hg ha hw.served hlt hn (not_bad_of_lt_slotsRun hi)
  exact (h i hi).local hg hsrc hdst le_rfl

/-- The sizes determine the layout. -/
theorem Accepted.geometry_eq {calloc calloc' : Nat → Bool} {S P : Nat} {vm vm' : Vm}
    (h : Accepted calloc S P vm) (h' : Accepted calloc' S P vm') :
    vm.toVmGeometry = vm'.toVmGeometry := by
  obtain ⟨-, -, raw, hraw, -, -, rfl⟩ := vmInit_eq_some_zero h.init
  obtain ⟨-, -, raw', hraw', -, -, rfl⟩ := vmInit_eq_some_zero h'.init
  obtain rfl := Option.some.inj (hraw.symm.trans hraw')
  rfl

/-- Inside the space a restored machine holds the bits that were dumped. -/
theorem restore_eqOn {g : VmGeometry} (hg : g.Wf) {w : World} (hw : Ready g w) (fresh : Vm)
    (n : Nat) : Set.EqOn w.vm.mem.bit (fresh.restore (n, w.vm.dump)).mem.bit
      (Set.Iio g.spaceBits) := by
  intro p hp
  have hlen : w.vm.dump.length = g.spaceBytes := by
    rw [Vm.dump, length_bytesAt, hw.geometry]
  rw [Set.mem_Iio, hg.spaceBits_eq] at hp
  show _ = (storeBytes fresh.mem 0 w.vm.dump).bit p
  rw [bit_storeBytes, hlen, if_pos (by omega), Vm.dump, bytesAt, List.getD_eq_getElem?_getD,
    List.getElem?_map, List.getElem?_range (by rw [hw.geometry]; omega)]
  simp [Mem.bit]

/-- **A snapshot resumes the machine.** Taken in any reached state, saved, loaded
and restored into another machine of the same size, it runs on as the first
machine does: the same result, streams, tick counter and space, if the copies of
the first machine are sound. The path can be written and read. -/
theorem checkpoint_resumes {calloc calloc' : Nat → Bool} {S P : Nat} {vm fresh : Vm}
    (h : Accepted calloc S P vm) (hlimit : CallocLimit calloc (2 ^ 53))
    (hfresh : Accepted calloc' S P fresh) {n : Nat} {w : World} (hw : Reached vm n w)
    (life : Nat) (hexact : ∀ t ∈ runStarts life w, TickExact t) {disk : Disk}
    {path : String} (hwrite : disk.writable (disk.place path) = true)
    (hread : disk.readable (disk.place path) = true) (hooks : List HookEvent)
    (stderr : List String) :
    ∃ disk' snap, saveSnapshot disk w.vm.tickCounter w.vm.dump path (some S) = .ok disk' ∧
      loadSnapshot disk' path = .ok snap ∧
      let resumed : World := ⟨fresh.restore snap, w.inp, w.out, hooks, stderr⟩
      (vmRun life w).val.1 = (vmRun life resumed).val.1 ∧
        (vmRun life w).val.2.vm.dump = (vmRun life resumed).val.2.vm.dump ∧
        (vmRun life w).val.2.inp = (vmRun life resumed).val.2.inp ∧
        (vmRun life w).val.2.out = (vmRun life resumed).val.2.out ∧
        (vmRun life w).val.2.vm.tickCounter = (vmRun life resumed).val.2.vm.tickCounter := by
  obtain ⟨hg, ha⟩ := addrBits_le_of_limit h hlimit
  have hready := hw.ready h.space
  have hcount : w.vm.tickCounter < 2 ^ 64 := by
    rw [hw.tickCounter h.space h.tickCounter]
    exact Nat.mod_lt _ (by decide)
  have hbytes : vm.spaceBytes = S := by
    obtain ⟨-, hS, -⟩ := h.wf (hlimit.mono (by decide))
    exact hS
  have hsize : sizeDiffers w.vm.dump (some S) = false := by
    rw [sizeDiffers, Vm.dump, length_bytesAt, hready.geometry, hbytes]
    simp
  obtain ⟨disk', hsave⟩ : ∃ disk', saveSnapshot disk w.vm.tickCounter w.vm.dump path (some S) =
      .ok disk' := saveSnapshot_ok.mpr ⟨hsize, by omega, by omega, hwrite⟩
  have hload := (load_of_save hsave).1 hread path rfl
  rw [Int.toNat_natCast] at hload
  refine ⟨disk', _, hsave, hload, ?_⟩
  intro resumed
  have hsame : SameCore (Set.Iio vm.spaceBits) vm.toVmGeometry w resumed :=
    ⟨hready, ⟨(h.geometry_eq hfresh).symm, rfl⟩, restore_eqOn hg hready fresh _, rfl, rfl, rfl⟩
  obtain ⟨hrc, hcore⟩ := vmRun_same hg le_rfl ha hsame fun t ht =>
    (hexact t ht).local hg ha (runStarts_ready hready life t ht)
  refine ⟨hrc, ?_, hcore.inp, hcore.out, hcore.tickCounter⟩
  rw [Vm.dump, Vm.dump, hcore.left.geometry, hcore.right.geometry]
  refine bytesAt_eq_of_eqOn hcore.bits fun p hp => ?_
  rw [Set.mem_Ico] at hp
  rw [Set.mem_Iio, hg.spaceBits_eq]
  omega

/-- A disk with nothing on it yet, where two names lead to one place. -/
def emptyDisk : Disk :=
  { place := fun path => if path = "copy.snap" ∨ path = "./copy.snap" then 0 else 1
    contents := fun _ => none
    readable := fun _ => true
    writable := fun place => place == 0 }

/-- A machine with one copy, saved before its first tick. -/
theorem checkpoint_resumes_copy :
    ∃ disk' snap, saveSnapshot emptyDisk 0 (smallVm.withMem copyMem).dump "copy.snap"
        (some 16) = .ok disk' ∧ loadSnapshot disk' "copy.snap" = .ok snap ∧
      (vmRun 2 (bareWorld (smallVm.withMem copyMem))).val.2.vm.dump =
        (vmRun 2 (bareWorld (smallVm.restore snap))).val.2.vm.dump := by
  have hreached : Reached smallVm 0 (bareWorld (smallVm.withMem copyMem)) :=
    (Reached.init (w := bareWorld smallVm) rfl).host ⟨rfl, rfl, rfl⟩
  have hexact : ∀ t ∈ runStarts 2 (bareWorld (smallVm.withMem copyMem)), TickExact t := by
    decide +kernel
  obtain ⟨disk', snap, hsave, hload, -, hdump, -⟩ := checkpoint_resumes smallVm_accepted
    (hostCalloc_limit.mono (by decide)) smallVm_accepted hreached 2 hexact
    (by decide : emptyDisk.writable (emptyDisk.place "copy.snap") = true) (by decide) [] []
  exact ⟨disk', snap, hsave, hload, hdump⟩

end SpaceVerifier.Runtime
