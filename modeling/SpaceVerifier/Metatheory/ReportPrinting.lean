import SpaceVerifier.Verifier.Report

/-!
# Which reports can be printed

A report is printed or the run ends without one. Two kinds of values decide it,
and only in entries: integers beyond the interpreter's limit of digits, and, in
the text format, region names that have no encoding. A report without entries is
always printed.
-/

namespace SpaceVerifier.Verifier

open Foundation

/-! ## What can be shown -/

/-- The value can be shown in this format. -/
def Shows (host : PyHost) (format : Format) (v : PyVal) : Prop :=
  (∀ z ∈ v.ints, host.Fits z) ∧
    (format = .text → ∀ s, v = .str s → s.encodable = true)

def Reason.Printable (host : PyHost) (format : Format) (r : Reason) : Prop :=
  ∀ v, Piece.val v ∈ r.pieces → Shows host format v

/-- JSON has all fields of a violation, the text only the reason. -/
def Violation.Printable (host : PyHost) (format : Format) (v : Violation) : Prop :=
  v.reason.Printable host format ∧
    (format = .json → host.Fits v.n ∧ host.Fits v.dst ∧ host.Fits v.src)

def Conflict.Printable (host : PyHost) (c : Conflict) : Prop :=
  host.Fits c.overlapBegin ∧ host.Fits c.overlapEnd

structure Report.Printable (host : PyHost) (format : Format) (r : Report) : Prop where
  memory : ∀ m, r.memory = some m → ∀ v ∈ m.violations, v.Printable host format
  conflict : ∀ c, r.conflict = some c → ∀ k ∈ c.conflicts, k.Printable host

section Printing

variable {host : PyHost} {format : Format}

@[simp] theorem shows_int {z : Int} : Shows host format (.int z) ↔ host.Fits z := by
  simp [Shows, PyVal.ints]

/-! ## The parts -/

theorem reason_lits {r : Reason} {s : PyStr} (h : Piece.lit s ∈ r.pieces) : s.Plain := by
  have hall : ∀ p ∈ r.pieces, ∀ s, p = .lit s → s.Plain := by
    cases r <;> simp only [Reason.pieces, List.forall_mem_cons, Piece.lit.injEq,
      forall_eq', reduceCtorEq, false_imp_iff, implies_true, true_and, List.not_mem_nil,
      and_true] <;> decide
  exact hall _ h s rfl

theorem reason_ok_iff {r : Reason} : (∃ t, r.text host = .ok t) ↔
    ∀ v, Piece.val v ∈ r.pieces → ∀ z ∈ v.ints, host.Fits z :=
  fstring_ok_iff

theorem reason_over_iff {P : PyChar → Prop}
    (hP : ∀ c, c.isScalar = true ∧ c ≠ PyStr.newline → P c) {r : Reason} {t : PyStr}
    (h : r.text host = .ok t) :
    t.Over P ↔ ∀ s, Piece.val (.str s) ∈ r.pieces → s.Over P :=
  fstring_over_iff hP (fun _ hs => (reason_lits hs).mono hP) h

theorem jsonInt_eq_ok {z : Int} {x : PyVal} :
    jsonInt host z = .ok x ↔ host.Fits z ∧ x = .int z := by
  rw [jsonInt, bind_eq_ok, ← intText_ok_iff, exists_and_right, pure_eq_ok, @eq_comm _ x]

theorem violationToDict_eq_ok {v : Violation} {d : PyVal} :
    violationToDict host v = .ok d ↔ ∃ reason, v.reason.text host = .ok reason ∧
      (host.Fits v.n ∧ host.Fits v.dst ∧ host.Fits v.src) ∧
      d = .dict [("tick", .int v.tick), ("slot", .int v.slot), ("n", .int v.n),
        ("dst", .int v.dst), ("src", .int v.src), ("reason", .str reason)] := by
  simp only [violationToDict, bind_eq_ok, jsonInt_eq_ok, pure_eq_ok]
  constructor
  · rintro ⟨reason, hreason, _, ⟨hn, rfl⟩, _, ⟨hdst, rfl⟩, _, ⟨hsrc, rfl⟩, rfl⟩
    exact ⟨reason, hreason, ⟨hn, hdst, hsrc⟩, rfl⟩
  · rintro ⟨reason, hreason, ⟨hn, hdst, hsrc⟩, rfl⟩
    exact ⟨reason, hreason, _, ⟨hn, rfl⟩, _, ⟨hdst, rfl⟩, _, ⟨hsrc, rfl⟩, rfl⟩

theorem conflictToDict_eq_ok {c : Conflict} {d : PyVal} :
    conflictToDict host c = .ok d ↔ c.Printable host ∧
      d = .dict [("tick", .int c.tick), ("slot_a", .int c.slotA), ("slot_b", .int c.slotB),
        ("overlap_begin", .int c.overlapBegin), ("overlap_end", .int c.overlapEnd),
        ("kind", .str c.kind.text)] := by
  simp only [conflictToDict, bind_eq_ok, jsonInt_eq_ok, pure_eq_ok]
  constructor
  · rintro ⟨_, ⟨hbegin, rfl⟩, _, ⟨hend, rfl⟩, rfl⟩
    exact ⟨⟨hbegin, hend⟩, rfl⟩
  · rintro ⟨⟨hbegin, hend⟩, rfl⟩
    exact ⟨_, ⟨hbegin, rfl⟩, _, ⟨hend, rfl⟩, rfl⟩

/-! ## Lines -/

theorem status_plain (st : Status) : st.text.Plain := by
  cases st <;> decide

theorem violationLine_ok_iff {v : Violation} :
    (∃ l, violationLine host v = .ok l) ↔ ∃ t, v.reason.text host = .ok t := by
  rw [violationLine, exists_bind_ok]
  refine exists_congr fun t => and_iff_left_of_imp fun _ => fstring_ok_iff.mpr ?_
  simp [Piece.count, PyVal.ints]

theorem conflictLine_ok_iff {c : Conflict} :
    (∃ l, conflictLine host c = .ok l) ↔ c.Printable host := by
  rw [conflictLine, fstring_ok_iff]
  simp [Piece.count, PyVal.ints, Conflict.Printable]

section Over

variable {P : PyChar → Prop} (hP : ∀ c, c.isScalar = true ∧ c ≠ PyStr.newline → P c)
include hP

theorem violationLine_over_iff {v : Violation} {l : PyStr}
    (h : violationLine host v = .ok l) :
    l.Over P ↔ ∀ s, Piece.val (.str s) ∈ v.reason.pieces → s.Over P := by
  obtain ⟨t, ht, h⟩ := bind_eq_ok.mp h
  rw [← reason_over_iff hP ht, fstring_over_iff hP ?_ h]
  · simp [Piece.count]
  · intro s hs
    refine PyStr.Over.mono (show s.Plain from ?_) hP
    simp only [Piece.count, List.mem_cons, Piece.lit.injEq, reduceCtorEq, List.not_mem_nil,
      or_false] at hs
    rcases hs with rfl | rfl | rfl | rfl | rfl
    exacts [by decide, natText_plain _, by decide, natText_plain _, by decide]

theorem conflictLine_over {c : Conflict} {l : PyStr} (h : conflictLine host c = .ok l) :
    l.Over P := by
  have hlabel : (kindLabel c.kind.text).Plain := by
    cases c.kind <;> decide
  refine (fstring_over_iff hP ?_ h).mpr (by simp [Piece.count])
  intro s hs
  refine PyStr.Over.mono (show s.Plain from ?_) hP
  simp only [Piece.count, List.mem_cons, Piece.lit.injEq, reduceCtorEq, List.not_mem_nil,
    or_false, false_or] at hs
  rcases hs with rfl | rfl | rfl | rfl | rfl | rfl | rfl | rfl | rfl | rfl | rfl
  exacts [by decide, natText_plain _, by decide, natText_plain _, by decide, hlabel,
    by decide, natText_plain _, by decide, by decide, by decide]

end Over

/-! ## The text -/

section Entries

variable {α : Type} {line : α → Except PyExc PyStr} {none : PyStr} {entries : List α}

theorem entryLines_ok_iff : (∃ ls, entryLines line none entries = .ok ls) ↔
    ∀ e ∈ entries, ∃ l, line e = .ok l := by
  unfold entryLines
  split
  · next hempty =>
      rw [List.isEmpty_iff.mp hempty]
      exact iff_of_true ⟨_, rfl⟩ fun e he => absurd he List.not_mem_nil
  · exact exists_mapM_ok

theorem entryLines_over_iff {P : PyChar → Prop} {Q : α → Prop} (hnone : none.Over P)
    (hline : ∀ e l, line e = .ok l → (l.Over P ↔ Q e)) {ls : List PyStr}
    (h : entryLines line none entries = .ok ls) :
    (∀ l ∈ ls, l.Over P) ↔ ∀ e ∈ entries, Q e := by
  unfold entryLines at h
  split at h
  · next hempty =>
      obtain rfl := Except.ok.inj h
      rw [List.isEmpty_iff.mp hempty]
      exact iff_of_true (by simpa using hnone) fun e he => absurd he List.not_mem_nil
  · have hwritten := mapM_eq_ok_iff.mp h
    constructor
    · intro hall e he
      obtain ⟨l, hl, heq⟩ := exists_right_of_forall₂ hwritten he
      exact (hline e l heq).mp (hall l hl)
    · intro hall l hl
      obtain ⟨e, he, heq⟩ := exists_left_of_forall₂ hwritten hl
      exact (hline e l heq).mpr (hall e he)

end Entries

theorem memoryHead_plain (m : MemoryCheckResult) : ∀ l ∈ memoryHead m, l.Plain := by
  simp only [memoryHead, List.forall_mem_cons, List.not_mem_nil, false_imp_iff, implies_true,
    and_true, PyStr.Plain, PyStr.over_concat]
  exact ⟨by decide, ⟨by decide, status_plain _⟩, by decide, natText_plain _, by decide,
    natText_plain _, by decide, natText_plain _, by decide⟩

theorem conflictHead_plain (c : ConflictCheckResult) : ∀ l ∈ conflictHead c, l.Plain := by
  simp only [conflictHead, List.forall_mem_cons, List.not_mem_nil, false_imp_iff, implies_true,
    and_true, PyStr.Plain, PyStr.over_concat]
  exact ⟨by decide, ⟨by decide, status_plain _⟩, by decide, natText_plain _, by decide,
    natText_plain _, by decide, natText_plain _⟩

theorem overallLine_plain (r : Report) : (overallLine r).Plain := by
  unfold overallLine
  cases r.textStatus <;> decide

/-- The parts of the text, in the order of its lines. -/
theorem textLines_eq_ok {r : Report} {ls : List PyStr} :
    r.textLines host = .ok ls ↔ ∃ memory conflict,
      r.memory.toList.mapM (memoryLines host) = .ok memory ∧
      r.conflict.toList.mapM (conflictLines host) = .ok conflict ∧
      ls = memory.flatten ++ conflict.flatten ++ [rule, overallLine r] :=
  bind_bind_eq_ok

theorem textLines_ok_iff {r : Report} : (∃ ls, r.textLines host = .ok ls) ↔
    (∀ m, r.memory = some m → ∀ v ∈ m.violations, ∃ t, v.reason.text host = .ok t) ∧
      ∀ c, r.conflict = some c → ∀ k ∈ c.conflicts, k.Printable host := by
  have hmemory : ∀ m, (∃ ls, memoryLines host m = .ok ls) ↔
      ∀ v ∈ m.violations, ∃ t, v.reason.text host = .ok t := by
    intro m
    rw [memoryLines, exists_bind_ok]
    simp only [pure_eq_ok, exists_eq', and_true, entryLines_ok_iff, violationLine_ok_iff]
  have hconflict : ∀ c, (∃ ls, conflictLines host c = .ok ls) ↔
      ∀ k ∈ c.conflicts, k.Printable host := by
    intro c
    rw [conflictLines, exists_bind_ok]
    simp only [pure_eq_ok, exists_eq', and_true, entryLines_ok_iff, conflictLine_ok_iff]
  simp only [← hmemory, ← hconflict, ← Option.mem_toList]
  rw [← exists_mapM_ok, ← exists_mapM_ok]
  simp only [textLines_eq_ok]
  constructor
  · rintro ⟨_, memory, conflict, hm, hc, -⟩
    exact ⟨⟨memory, hm⟩, conflict, hc⟩
  · rintro ⟨⟨memory, hm⟩, conflict, hc⟩
    exact ⟨_, memory, conflict, hm, hc, rfl⟩

/-- Only region names that are texts can bring characters that do not print, or
another line. -/
theorem textLines_over_iff {P : PyChar → Prop}
    (hP : ∀ c, c.isScalar = true ∧ c ≠ PyStr.newline → P c) {r : Report} {ls : List PyStr}
    (h : r.textLines host = .ok ls) :
    (∀ l ∈ ls, l.Over P) ↔ ∀ m, r.memory = some m → ∀ v ∈ m.violations,
      ∀ s, Piece.val (.str s) ∈ v.reason.pieces → s.Over P := by
  obtain ⟨memory, conflict, hmemory, hconflict, rfl⟩ := textLines_eq_ok.mp h
  have hmem := mapM_eq_ok_iff.mp hmemory
  have hconf := mapM_eq_ok_iff.mp hconflict
  have hlevel : ∀ m ls, memoryLines host m = .ok ls → ((∀ l ∈ ls, l.Over P) ↔
      ∀ v ∈ m.violations, ∀ s, Piece.val (.str s) ∈ v.reason.pieces → s.Over P) := by
    intro m ls hls
    obtain ⟨entries, hentries, hls⟩ := bind_eq_ok.mp hls
    obtain rfl := Except.ok.inj hls
    rw [List.forall_mem_append, and_iff_right fun l hl => (memoryHead_plain m l hl).mono hP]
    exact entryLines_over_iff (PyStr.Over.mono (show PyStr.Plain _ by decide) hP)
      (fun v l hl => violationLine_over_iff hP hl) hentries
  have hlevel2 : ∀ c ls, conflictLines host c = .ok ls → ∀ l ∈ ls, l.Over P := by
    intro c ls hls
    obtain ⟨entries, hentries, hls⟩ := bind_eq_ok.mp hls
    obtain rfl := Except.ok.inj hls
    refine List.forall_mem_append.mpr ⟨fun l hl => (conflictHead_plain c l hl).mono hP, ?_⟩
    refine (entryLines_over_iff (Q := fun _ => True)
      (PyStr.Over.mono (show PyStr.Plain _ by decide) hP)
      (fun k l hl => iff_of_true (conflictLine_over hP hl) trivial) hentries).mpr ?_
    exact fun _ _ => trivial
  have hlast : ∀ l ∈ [rule, overallLine r], l.Over P := by
    simp only [List.forall_mem_cons, List.not_mem_nil, false_imp_iff, implies_true, and_true]
    exact ⟨PyStr.Over.mono (show PyStr.Plain _ by decide) hP, (overallLine_plain r).mono hP⟩
  have hsecond : ∀ l ∈ conflict.flatten, l.Over P := by
    intro l hl
    obtain ⟨ls, hls, hl⟩ := List.mem_flatten.mp hl
    obtain ⟨c, -, hc⟩ := exists_left_of_forall₂ hconf hls
    exact hlevel2 c ls hc l hl
  rw [List.forall_mem_append, List.forall_mem_append, and_iff_left hlast, and_iff_left hsecond]
  constructor
  · intro hall m hm
    obtain ⟨ls, hls, hlines⟩ := exists_right_of_forall₂ hmem (Option.mem_toList.mpr hm)
    exact (hlevel m ls hlines).mp fun l hl => hall l (List.mem_flatten.mpr ⟨ls, hls, hl⟩)
  · intro hall l hl
    obtain ⟨ls, hls, hl⟩ := List.mem_flatten.mp hl
    obtain ⟨m, hm, hlines⟩ := exists_left_of_forall₂ hmem hls
    exact (hlevel m ls hlines).mpr (hall m (Option.mem_toList.mp hm)) l hl

/-! ## The dictionary -/

theorem memoryCheckToDict_eq_ok {m : MemoryCheckResult} {d : PyVal} :
    memoryCheckToDict host m = .ok d ↔ ∃ entries,
      m.violations.mapM (violationToDict host) = .ok entries ∧
      d = .dict [("status", .str m.status.text), ("violations", .list entries),
        ("total_checked", .int m.totalChecked), ("total_nop", .int m.totalNop)] := by
  simp only [memoryCheckToDict, violationsToDict, bind_eq_ok, pure_eq_ok, @eq_comm _ _ d]
  constructor
  · rintro ⟨_, ⟨entries, hentries, rfl⟩, rfl⟩
    exact ⟨entries, hentries, rfl⟩
  · rintro ⟨entries, hentries, rfl⟩
    exact ⟨_, ⟨entries, hentries, rfl⟩, rfl⟩

theorem conflictCheckToDict_eq_ok {c : ConflictCheckResult} {d : PyVal} :
    conflictCheckToDict host c = .ok d ↔ ∃ entries,
      c.conflicts.mapM (conflictToDict host) = .ok entries ∧
      d = .dict [("status", .str c.status.text), ("layers_checked", .int c.layersChecked),
        ("total_non_nop", .int c.totalNonNop), ("conflicts", .list entries)] := by
  simp only [conflictCheckToDict, conflictsToDict, bind_eq_ok, pure_eq_ok, @eq_comm _ _ d]
  constructor
  · rintro ⟨_, ⟨entries, hentries, rfl⟩, rfl⟩
    exact ⟨entries, hentries, rfl⟩
  · rintro ⟨entries, hentries, rfl⟩
    exact ⟨_, ⟨entries, hentries, rfl⟩, rfl⟩

/-- The parts of the dictionary, in the order of its keys. -/
theorem toJson_eq_ok {r : Report} {d : PyVal} :
    r.toJson host = .ok d ↔ ∃ memory conflict,
      r.memory.toList.mapM (memoryCheckToDict host) = .ok memory ∧
      r.conflict.toList.mapM (conflictCheckToDict host) = .ok conflict ∧
      d = .dict (memory.map (entry "memory_check") ++ conflict.map (entry "conflict_check") ++
        [entry "overall_status" (.str r.jsonStatus.text)]) :=
  bind_bind_eq_ok

theorem toJson_ok_iff {r : Report} : (∃ d, r.toJson host = .ok d) ↔
    (∀ m, r.memory = some m → ∀ v ∈ m.violations, (∃ t, v.reason.text host = .ok t) ∧
      host.Fits v.n ∧ host.Fits v.dst ∧ host.Fits v.src) ∧
      ∀ c, r.conflict = some c → ∀ k ∈ c.conflicts, k.Printable host := by
  have hviolation : ∀ v, (∃ d, violationToDict host v = .ok d) ↔
      (∃ t, v.reason.text host = .ok t) ∧ host.Fits v.n ∧ host.Fits v.dst ∧ host.Fits v.src := by
    intro v
    simp only [violationToDict_eq_ok]
    constructor
    · rintro ⟨-, t, ht, hfits, -⟩
      exact ⟨⟨t, ht⟩, hfits⟩
    · rintro ⟨⟨t, ht⟩, hfits⟩
      exact ⟨_, t, ht, hfits, rfl⟩
  have hmemory : ∀ m, (∃ d, memoryCheckToDict host m = .ok d) ↔
      ∀ v ∈ m.violations, ∃ d, violationToDict host v = .ok d := by
    intro m
    simp only [memoryCheckToDict_eq_ok, ← exists_mapM_ok]
    constructor
    · rintro ⟨-, es, hes, -⟩
      exact ⟨es, hes⟩
    · rintro ⟨es, hes⟩
      exact ⟨_, es, hes, rfl⟩
  have hconflict : ∀ c, (∃ d, conflictCheckToDict host c = .ok d) ↔
      ∀ k ∈ c.conflicts, ∃ d, conflictToDict host k = .ok d := by
    intro c
    simp only [conflictCheckToDict_eq_ok, ← exists_mapM_ok]
    constructor
    · rintro ⟨-, es, hes, -⟩
      exact ⟨es, hes⟩
    · rintro ⟨es, hes⟩
      exact ⟨_, es, hes, rfl⟩
  have hentry : ∀ k, (∃ d, conflictToDict host k = .ok d) ↔ k.Printable host := by
    intro k
    simp only [conflictToDict_eq_ok]
    constructor
    · rintro ⟨-, hfits, -⟩
      exact hfits
    · exact fun hfits => ⟨_, hfits, rfl⟩
  simp only [← hentry, ← hviolation, ← hmemory, ← hconflict, ← Option.mem_toList]
  rw [← exists_mapM_ok, ← exists_mapM_ok]
  simp only [toJson_eq_ok]
  constructor
  · rintro ⟨_, memory, conflict, hm, hc, -⟩
    exact ⟨⟨memory, hm⟩, conflict, hc⟩
  · rintro ⟨⟨memory, hm⟩, conflict, hc⟩
    exact ⟨_, memory, conflict, hm, hc, rfl⟩

/-! ## Printing -/

theorem toText_ok_iff {r : Report} : (∃ t, r.toText host = .ok t) ↔
    (∀ m, r.memory = some m → ∀ v ∈ m.violations, ∃ t, v.reason.text host = .ok t) ∧
      ∀ c, r.conflict = some c → ∀ k ∈ c.conflicts, k.Printable host := by
  rw [Report.toText, exists_bind_ok, ← textLines_ok_iff]
  simp only [pure_eq_ok, exists_eq', and_true]

/-- The text has an encoding when the region names it shows have one. -/
theorem toText_encodable_iff {r : Report} {t : PyStr} (h : r.toText host = .ok t) :
    t.encodable = true ↔ ∀ m, r.memory = some m → ∀ v ∈ m.violations,
      ∀ s, Piece.val (.str s) ∈ v.reason.pieces → s.encodable = true := by
  obtain ⟨ls, hls, h⟩ := bind_eq_ok.mp h
  obtain rfl := Except.ok.inj h
  simp only [PyStr.encodable_iff]
  rw [PyStr.over_join (by decide)]
  exact textLines_over_iff (fun _ hc => hc.1) hls

theorem print_text_eq_ok {r : Report} {printed : Printed} :
    r.print host .text = .ok printed ↔
      ∃ t, r.toText host = .ok t ∧ t.encodable = true ∧ printed = .text t := by
  simp only [Report.print, bind_eq_ok]
  refine exists_congr fun t => and_congr_right fun _ => ?_
  split
  · next henc => rw [pure_eq_ok, and_iff_right henc, eq_comm]
  · next hno => exact iff_of_false (fun h => by cases h) fun h => hno h.1

theorem print_json_eq_ok {r : Report} {printed : Printed} :
    r.print host .json = .ok printed ↔ ∃ d, r.toJson host = .ok d ∧ printed = .json d := by
  simp only [Report.print, bind_eq_ok, pure_eq_ok, @eq_comm _ _ printed]

/-- **A report is printed exactly when its entries can be shown.** -/
theorem print_ok_iff {r : Report} :
    (∃ printed, r.print host format = .ok printed) ↔ r.Printable host format := by
  have hreason : ∀ v : Violation, (∃ t, v.reason.text host = .ok t) ↔
      ∀ x, Piece.val x ∈ v.reason.pieces → ∀ z ∈ x.ints, host.Fits z := fun _ => reason_ok_iff
  cases format with
  | json =>
      simp only [print_json_eq_ok]
      have hok : (∃ printed, ∃ d, r.toJson host = .ok d ∧ printed = Printed.json d) ↔
          ∃ d, r.toJson host = .ok d := by
        constructor
        · rintro ⟨-, d, hd, -⟩
          exact ⟨d, hd⟩
        · rintro ⟨d, hd⟩
          exact ⟨_, d, hd, rfl⟩
      rw [hok, toJson_ok_iff]
      simp only [hreason]
      constructor
      · rintro ⟨hm, hc⟩
        refine ⟨fun m hmem v hv => ⟨fun x hx => ⟨(hm m hmem v hv).1 x hx, ?_⟩, fun _ => ?_⟩, hc⟩
        · rintro ⟨⟩
        · exact (hm m hmem v hv).2
      · rintro ⟨hm, hc⟩
        exact ⟨fun m hmem v hv => ⟨fun x hx => ((hm m hmem v hv).1 x hx).1,
          (hm m hmem v hv).2 rfl⟩, hc⟩
  | text =>
      simp only [print_text_eq_ok]
      constructor
      · rintro ⟨_, t, ht, henc, -⟩
        obtain ⟨hm, hc⟩ := toText_ok_iff.mp ⟨t, ht⟩
        have hnames := (toText_encodable_iff ht).mp henc
        refine ⟨fun m hmem v hv => ⟨fun x hx => ⟨?_, ?_⟩, fun hjson => by cases hjson⟩, hc⟩
        · exact (hreason v).mp (hm m hmem v hv) x hx
        · rintro - s rfl
          exact hnames m hmem v hv s hx
      · rintro ⟨hm, hc⟩
        obtain ⟨t, ht⟩ := toText_ok_iff.mpr ⟨fun m hmem v hv =>
          (hreason v).mpr fun x hx => ((hm m hmem v hv).1 x hx).1, hc⟩
        refine ⟨_, t, ht, (toText_encodable_iff ht).mpr fun m hmem v hv s hs => ?_, rfl⟩
        exact ((hm m hmem v hv).1 _ hs).2 rfl s rfl

/-- A report without entries is always printed. -/
theorem printable_of_no_entries {r : Report}
    (hm : ∀ m, r.memory = some m → m.violations = [])
    (hc : ∀ c, r.conflict = some c → c.conflicts = []) : r.Printable host format := by
  constructor
  · intro m hmem v hv
    rw [hm m hmem] at hv
    cases hv
  · intro c hconf k hk
    rw [hc c hconf] at hk
    cases hk

end Printing

end SpaceVerifier.Verifier
