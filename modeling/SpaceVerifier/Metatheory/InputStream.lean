import SpaceVerifier.Metatheory.InputHandshake
import SpaceVerifier.Metatheory.Rounds

/-!
# The input along a run

The IN service is the only reader of the input stream. A program may ask for its
input in blocks of any length, wait between two requests, be halted or stop in an
error: the blocks of a run in tick order are the bytes of the stream in stream
order, none lost and none delivered twice.
-/

namespace SpaceVerifier.Runtime

open Foundation Foundation.Traced

/-! ## What a stream has delivered -/

def ReadEvent.byte? : ReadEvent → Option Byte
  | .byte b => some b
  | .eof | .error => none

/-- The bytes among the outcomes of the attempts `a, …, b - 1`. -/
def bytesBetween (script : Nat → ReadEvent) (a b : Nat) : List Byte :=
  (List.range' a (b - a)).filterMap fun i => (script i).byte?

theorem bytesBetween_self (script : Nat → ReadEvent) (a : Nat) :
    bytesBetween script a a = [] := by
  rw [bytesBetween, Nat.sub_self]
  rfl

theorem bytesBetween_succ (script : Nat → ReadEvent) (a : Nat) :
    bytesBetween script a (a + 1) = (script a).byte?.toList := by
  rw [bytesBetween, Nat.add_sub_cancel_left]
  cases h : script a <;> simp [h, ReadEvent.byte?]

theorem bytesBetween_append {script : Nat → ReadEvent} {a b c : Nat} (hab : a ≤ b)
    (hbc : b ≤ c) :
    bytesBetween script a b ++ bytesBetween script b c = bytesBetween script a c := by
  have hsplit : List.range' a (b - a) ++ List.range' b (c - b) = List.range' a (c - a) := by
    rw [show c - a = (b - a) + (c - b) by omega, ← List.range'_append_1,
      show a + (b - a) = b by omega]
  unfold bytesBetween
  rw [← List.filterMap_append, hsplit]

/-- `f'` is `f` after reads that have delivered `bytes` in all. -/
structure Consumed (f f' : InFile) (bytes : List Byte) : Prop where
  script : f'.script = f.script
  pos_le : f.pos ≤ f'.pos
  bytes_eq : bytes = bytesBetween f.script f.pos f'.pos
  ended : f.eof = true → f' = f

theorem Consumed.refl (f : InFile) : Consumed f f [] :=
  ⟨rfl, le_rfl, (bytesBetween_self _ _).symm, fun _ => rfl⟩

theorem Consumed.trans {f f' f'' : InFile} {bs bs' : List Byte} (h : Consumed f f' bs)
    (h' : Consumed f' f'' bs') : Consumed f f'' (bs ++ bs') := by
  refine ⟨h'.script.trans h.script, h.pos_le.trans h'.pos_le, ?_, fun heof => ?_⟩
  · rw [h.bytes_eq, h'.bytes_eq, h.script]
    exact bytesBetween_append h.pos_le h'.pos_le
  · rw [h'.ended (by rw [h.ended heof, heof]), h.ended heof]

theorem fgetc_consumed (f : InFile) : Consumed f (fgetc f).2 (fgetc f).1.toList := by
  unfold fgetc
  split
  · exact Consumed.refl f
  · next heof =>
    have hstep := bytesBetween_succ f.script f.pos
    split
    all_goals
      next hscript =>
      refine ⟨rfl, Nat.le_succ _, ?_, fun h => absurd h heof⟩
      rw [hstep, hscript]
      rfl

theorem fread_consumed (n : Nat) (f : InFile) : Consumed f (fread n f).2 (fread n f).1 := by
  induction n generalizing f with
  | zero => exact Consumed.refl f
  | succ n ih =>
      have hget := fgetc_consumed f
      rw [fread]
      split
      · next b f' heq =>
          rw [heq] at hget
          exact hget.trans (ih f')
      · next f' heq =>
          rw [heq] at hget
          exact hget

/-- A read that is cut short has met the end of the input or an error. -/
theorem fread_complete (n : Nat) (f : InFile) :
    (fread n f).1.length = n ∨ (fread n f).2.eof = true ∨ (fread n f).2.err = true := by
  induction n generalizing f with
  | zero => exact Or.inl rfl
  | succ n ih =>
      rw [fread]
      split
      · next b f' heq =>
          refine (ih f').imp_left fun hlen => ?_
          rw [List.length_cons, hlen]
      · next f' heq =>
          right
          unfold fgetc at heq
          split at heq
          · next heof =>
              obtain ⟨-, rfl⟩ := Prod.mk.inj heq
              exact Or.inl heof
          · split at heq
            · cases heq
            · obtain ⟨-, rfl⟩ := Prod.mk.inj heq
              exact Or.inl rfl
            · obtain ⟨-, rfl⟩ := Prod.mk.inj heq
              exact Or.inr rfl

/-! ## One tick -/

/-- The tick serves a request for input that is in order. -/
def Requests (g : VmGeometry) (w : World) : Prop :=
  (inWorld w).vm.mem.bit g.mmio.inReq = true ∧ inChannel.Valid g (inWorld w).vm.mem

instance (g : VmGeometry) (w : World) : Decidable (Requests g w) :=
  inferInstanceAs (Decidable (_ ∧ _))

/-- The block a tick delivers. -/
def inBlock (g : VmGeometry) (w : World) : List Byte :=
  if Requests g w then inBytes g (inWorld w) else []

section Tick

variable {g : VmGeometry} (hg : g.Wf) (ha : g.addrBits ≤ 56)
include hg ha

/-- The IN service of a tick, with or without a request in order. -/
theorem served_input {w : World} (hw : Ready g w) :
    (Requests g w ∧ served w = inDone g (inWorld w)) ∨
      (¬ Requests g w ∧ (served w).inp = (inWorld w).inp) := by
  have hready := inWorld_ready hw
  have hserved : served w = (serviceIn (inWorld w)).val := by
    rw [served, mmioPhase, val_bind]
    rfl
  rw [hserved]
  cases hreq : (inWorld w).vm.mem.bit g.mmio.inReq with
  | false =>
      refine Or.inr ⟨fun h => ?_, ?_⟩
      · rw [h.1] at hreq
        cases hreq
      · rw [serviceIn_idle (by rw [hready.geometry, hreq])]
  | true =>
      by_cases hok : inChannel.Accepts g (inWorld w).vm.mem
      · exact Or.inl ⟨⟨hreq, (Channel.accepts_iff_valid ha).mp hok⟩,
          serviceIn_accepted hg hready hreq hok⟩
      · refine Or.inr ⟨fun h => hok ((Channel.accepts_iff_valid ha).mpr h.2), ?_⟩
        rw [serviceIn_rejected hg hready hreq hok]
        rfl

/-- **A tick reads its block** and nothing else. -/
theorem vmTick_consumed {w : World} (hw : Ready g w) :
    Consumed w.inp (vmTick w).val.2.inp (inBlock g w) := by
  have hinp : (inWorld w).inp = w.inp := serviceOut_inp hg hw.reset
  rw [(ranSlots hw.space).streams.1, inBlock, ← hinp]
  rcases served_input hg ha hw with ⟨hreq, hserved⟩ | ⟨hno, hserved⟩
  · rw [if_pos hreq, hserved, inDone_inp]
    exact fread_consumed _ _
  · rw [if_neg hno, hserved]
    exact Consumed.refl _

/-- A run reads the blocks of its ticks in order. -/
theorem ticks_consumed {w : World} (hw : Ready g w) (k : Nat) :
    Consumed w.inp (ticks k w).val.inp
      ((List.range k).flatMap fun i => inBlock g (ticks i w).val) := by
  induction k with
  | zero => exact Consumed.refl _
  | succ k ih =>
      rw [List.range_succ, List.flatMap_append, List.flatMap_singleton, ticks_succ_last]
      exact ih.trans (vmTick_consumed hg ha (ticks_ready hw k))

/-- The block of a tick lies where the request wanted it when the slots begin,
the registers of the channel apart. -/
theorem inBlock_stored {w : World} (hw : Ready g w) {j i : Nat}
    (hj : j < (inBlock g w).length) (hi : i < 8)
    (hp : inChannel.addrField g (inWorld w).vm.mem + 8 * j + i ∉ inRegs g) :
    (served w).vm.mem.bit (inChannel.addrField g (inWorld w).vm.mem + 8 * j + i) =
      ((inBlock g w).getD j 0).getMsbD i := by
  rcases served_input hg ha hw with ⟨hreq, hserved⟩ | ⟨hno, -⟩
  · have hready := inWorld_ready hw
    have hok := (Channel.accepts_iff_valid ha).mpr hreq.2
    have halign := hreq.2.1
    rw [inBlock, if_pos hreq] at hj
    rw [hserved, ← serviceIn_accepted hg hready hreq.1 hok,
      serviceIn_accepted_bit hg hready hreq.1 hok hp, if_pos ⟨by omega, by omega⟩, inBlock,
      if_pos hreq, deliveredBit]
    congr 2
    · omega
    · omega
  · rw [inBlock, if_neg hno] at hj
    exact absurd hj (Nat.not_lt_zero j)

end Tick

/-- **The input along a run.** In any number of ticks, whatever each of them
returns, the blocks delivered are the bytes of the stream between its positions
before and after, in order, and an ended stream is not read again. Every tick
with a request in order delivers all it asked for, or meets the end of the input
or an error; its block is in place when its slots begin. -/
theorem ticks_input {calloc : Nat → Bool} {S P : Nat} {vm : Vm}
    (h : Accepted calloc S P vm) (hlimit : CallocLimit calloc (2 ^ 53)) {w : World}
    (hw : Ready vm.toVmGeometry w) (k : Nat) :
    Consumed w.inp (ticks k w).val.inp
      ((List.range k).flatMap fun i => inBlock vm.toVmGeometry (ticks i w).val) ∧
    (Requests vm.toVmGeometry (ticks k w).val →
      8 * (inBlock vm.toVmGeometry (ticks k w).val).length =
          inChannel.lenField vm.toVmGeometry (inWorld (ticks k w).val).vm.mem ∨
        (ticks (k + 1) w).val.inp.eof = true ∨ (ticks (k + 1) w).val.inp.err = true) ∧
    ∀ j i, j < (inBlock vm.toVmGeometry (ticks k w).val).length → i < 8 →
      inChannel.addrField vm.toVmGeometry (inWorld (ticks k w).val).vm.mem + 8 * j + i ∉
        inRegs vm.toVmGeometry →
      (served (ticks k w).val).vm.mem.bit
          (inChannel.addrField vm.toVmGeometry (inWorld (ticks k w).val).vm.mem + 8 * j + i) =
        ((inBlock vm.toVmGeometry (ticks k w).val).getD j 0).getMsbD i := by
  obtain ⟨hg, ha⟩ := addrBits_le_of_limit h hlimit
  have hready := ticks_ready hw k
  refine ⟨ticks_consumed hg ha hw k, fun hreq => ?_, fun j i hj hi hp =>
    inBlock_stored hg ha hready hj hi hp⟩
  have hdone : served (ticks k w).val = inDone vm.toVmGeometry (inWorld (ticks k w).val) :=
    (served_input hg ha hready).elim (fun hcase => hcase.2) fun hcase => absurd hreq hcase.1
  have hlen : inChannel.lenField vm.toVmGeometry (inWorld (ticks k w).val).vm.mem % 8 = 0 :=
    hreq.2.2.1
  rw [ticks_succ_last, (ranSlots hready.space).streams.1, hdone, inDone_inp, inBlock,
    if_pos hreq]
  refine (fread_complete _ _).imp_left fun hfull => ?_
  show 8 * (fread _ _).1.length = _
  rw [hfull]
  omega

/-- One byte is read in the first of three ticks. -/
theorem ticks_input_small : Consumed (inputWorld 64 0x4F).inp
    (ticks 3 (inputWorld 64 0x4F)).val.inp [0x4F] :=
  (ticks_input smallVm_accepted (hostCalloc_limit.mono (by decide))
    (w := inputWorld 64 0x4F) ⟨rfl, rfl⟩ 3).1

end SpaceVerifier.Runtime
