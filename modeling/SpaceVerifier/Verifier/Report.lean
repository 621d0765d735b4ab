import SpaceVerifier.Foundation.PyText
import SpaceVerifier.Verifier.ConflictCheck

/-!
# `report.py`: the two formats of a report

`to_text` in full, and `to_json` up to the dictionary that it hands to
`json.dumps`, which is where an integer with too many digits is refused. Lists of
layers, slots and entries are objects in memory, so their lengths and indices
never reach that limit and are written without asking.

`memory_check.py` forms the text of a violation when it finds it. It is formed
here, where it is shown: in both places a text that cannot be formed ends the run
with an exception and without a report.
-/

namespace SpaceVerifier.Verifier

open Foundation

/-- `ReportBuilder`. -/
structure Report where
  memory : Option MemoryCheckResult
  conflict : Option ConflictCheckResult

/-- `ReportBuilder.overall_status`. -/
def Report.overallStatus (r : Report) : Status :=
  if (r.memory.map (·.status)) = some .fail then .fail
  else if (r.conflict.map (·.status)) = some .fail then .fail
  else .pass

/-! ## Texts -/

def Status.text : Status → PyStr
  | .pass => "PASS"
  | .fail => "FAIL"

/-- `Violation.reason`, with the values it shows. -/
def Reason.pieces : Reason → List Piece
  | .boundary dst n spaceBits =>
      ["dst+ n = ", .val (.int dst), "+", .val (.int n), " = ",
       .val (.int (dst + n : Nat)), " > SPACE_BITS=", .val spaceBits]
  | .protectedRegion dst n region =>
      ["dst range [", .val (.int dst), ", ", .val (.int (dst + n : Nat)), ") ",
       "intersects protected region ", .val region.name,
       " [", .val region.begin, ", ", .val region.endBit, ")"]
  | .notAllowed dst n =>
      ["dst range [", .val (.int dst), ", ", .val (.int (dst + n : Nat)), ") ",
       "is not within any allowed region"]

def Reason.text (host : PyHost) (r : Reason) : Except PyExc PyStr := host.fstring r.pieces

/-- The constants of `OverlapKind`. -/
def OverlapKind.text : OverlapKind → PyStr
  | .selfSrcDst => "self-src-dst"
  | .srcSrc => "src-src"
  | .dstDst => "dst-dst"
  | .srcDst => "src-dst"
  | .dstSrc => "dst-src"

def kindLabels : List (PyStr × PyStr) :=
  [("self-src-dst", "self (src ∩ dst)"), ("src-src", "src ∩ src"), ("dst-dst", "dst ∩ dst"),
   ("src-dst", "src ∩ dst"), ("dst-src", "dst ∩ src")]

/-- `_kind_label`. -/
def kindLabel (kind : PyStr) : PyStr := (kindLabels.lookup kind).getD kind

/-! ## JSON -/

/-- An integer that `json.dumps` has to write. -/
def jsonInt (host : PyHost) (z : Int) : Except PyExc PyVal := do
  let _ ← host.intText z
  return .int z

/-- One element of `violations_to_dict`. -/
def violationToDict (host : PyHost) (v : Violation) : Except PyExc PyVal := do
  let reason ← v.reason.text host
  return .dict [("tick", .int v.tick), ("slot", .int v.slot), ("n", ← jsonInt host v.n),
    ("dst", ← jsonInt host v.dst), ("src", ← jsonInt host v.src), ("reason", .str reason)]

def violationsToDict (host : PyHost) (violations : List Violation) : Except PyExc PyVal := do
  return .list (← violations.mapM (violationToDict host))

/-- One element of `conflicts_to_dict`. -/
def conflictToDict (host : PyHost) (c : Conflict) : Except PyExc PyVal := do
  return .dict [("tick", .int c.tick), ("slot_a", .int c.slotA), ("slot_b", .int c.slotB),
    ("overlap_begin", ← jsonInt host c.overlapBegin),
    ("overlap_end", ← jsonInt host c.overlapEnd), ("kind", .str c.kind.text)]

def conflictsToDict (host : PyHost) (conflicts : List Conflict) : Except PyExc PyVal := do
  return .list (← conflicts.mapM (conflictToDict host))

/-- The status of `to_json`, which does not use the property `overall_status`. -/
def Report.jsonStatus (r : Report) : Status :=
  let status := Status.pass
  let status := if r.memory.map (·.status) = some .fail then .fail else status
  if r.conflict.map (·.status) = some .fail then .fail else status

def memoryCheckToDict (host : PyHost) (m : MemoryCheckResult) : Except PyExc PyVal := do
  return .dict
    [("status", .str m.status.text), ("violations", ← violationsToDict host m.violations),
     ("total_checked", .int m.totalChecked), ("total_nop", .int m.totalNop)]

def conflictCheckToDict (host : PyHost) (c : ConflictCheckResult) : Except PyExc PyVal := do
  return .dict
    [("status", .str c.status.text), ("layers_checked", .int c.layersChecked),
     ("total_non_nop", .int c.totalNonNop),
     ("conflicts", ← conflictsToDict host c.conflicts)]

/-- `d[key] = v`. -/
def entry (key : PyStr) (v : PyVal) : PyStr × PyVal := (key, v)

/-- `to_json`: the dictionary, in the order of its insertions. -/
def Report.toJson (host : PyHost) (r : Report) : Except PyExc PyVal := do
  let memory ← r.memory.toList.mapM (memoryCheckToDict host)
  let conflict ← r.conflict.toList.mapM (conflictCheckToDict host)
  return .dict (memory.map (entry "memory_check") ++ conflict.map (entry "conflict_check") ++
    [entry "overall_status" (.str r.jsonStatus.text)])

/-! ## Text -/

/-- `"=" * 60`. -/
def rule : PyStr := .ofList (List.replicate 60 '=')

def violationLine (host : PyHost) (v : Violation) : Except PyExc PyStr := do
  let reason ← v.reason.text host
  host.fstring ["    ❌ tick=", .count v.tick, " slot=", .count v.slot, ": ",
    .val (.str reason)]

def conflictLine (host : PyHost) (c : Conflict) : Except PyExc PyStr :=
  host.fstring ["    ❌ tick=", .count c.tick, ": slot ", .count c.slotA, " ",
    .lit (kindLabel c.kind.text), " slot ", .count c.slotB, " overlap [",
    .val (.int c.overlapBegin), ", ", .val (.int c.overlapEnd), ")"]

/-- A line for each entry, or the line that says there is none. -/
def entryLines {α : Type} (line : α → Except PyExc PyStr) (none : PyStr) (entries : List α) :
    Except PyExc (List PyStr) :=
  if entries.isEmpty then .ok [none] else entries.mapM line

def memoryHead (m : MemoryCheckResult) : List PyStr :=
  [rule, .concat ["  L1 Memory-Safety Check: ", m.status.text],
   .concat ["  Instructions: ", natText m.totalChecked, " total, ", natText m.totalNop,
     " NOP, ", natText m.violations.length, " violations"]]

def memoryLines (host : PyHost) (m : MemoryCheckResult) : Except PyExc (List PyStr) := do
  return memoryHead m ++
    (← entryLines (violationLine host) "    ✅ No violations" m.violations)

def conflictHead (c : ConflictCheckResult) : List PyStr :=
  [rule, .concat ["  L2 Conflict-Free Check: ", c.status.text],
   .concat ["  Layers: ", natText c.layersChecked, ", non-NOP: ", natText c.totalNonNop,
     ", conflicts: ", natText c.conflicts.length]]

def conflictLines (host : PyHost) (c : ConflictCheckResult) : Except PyExc (List PyStr) := do
  return conflictHead c ++ (← entryLines (conflictLine host) "    ✅ No conflicts" c.conflicts)

/-- The status of `to_text`: both levels are absent or pass. -/
def Report.textStatus (r : Report) : Status :=
  let memOk := r.memory.all (·.status = .pass)
  let confOk := r.conflict.all (·.status = .pass)
  if memOk && confOk then .pass else .fail

def overallLine (r : Report) : PyStr := .concat ["  OVERALL: ", r.textStatus.text]

/-- The lines that `to_text` joins. -/
def Report.textLines (host : PyHost) (r : Report) : Except PyExc (List PyStr) := do
  let memory ← r.memory.toList.mapM (memoryLines host)
  let conflict ← r.conflict.toList.mapM (conflictLines host)
  return memory.flatten ++ conflict.flatten ++ [rule, overallLine r]

/-- `to_text`. -/
def Report.toText (host : PyHost) (r : Report) : Except PyExc PyStr := do
  return .join "\n" (← r.textLines host)

/-! ## Printing -/

inductive Format where
  | text
  | json
deriving DecidableEq, Repr

/-- What `main` prints: a text, or the JSON of a dictionary. -/
inductive Printed where
  | text (t : PyStr)
  | json (d : PyVal)

/-- The call of `print` in `main`. The output is in UTF-8, and JSON is in ASCII. -/
def Report.print (host : PyHost) (format : Format) (r : Report) : Except PyExc Printed :=
  match format with
  | .json => do return .json (← r.toJson host)
  | .text => do
      let t ← r.toText host
      if t.encodable then return .text t else throw .unicodeEncodeError

end SpaceVerifier.Verifier
