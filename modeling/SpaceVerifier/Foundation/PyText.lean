import SpaceVerifier.Foundation.ExceptList
import SpaceVerifier.Foundation.PyVal

/-!
# Values as texts

`str` and `repr` on the values of JSON, and f-strings. Two things here depend on
the interpreter: how it writes a float and quotes a text, and how many digits it
is willing to write for one integer. An integer beyond that limit raises, also
in the middle of a list.
-/

namespace Foundation

open PyStr

/-- What the interpreter decides about texts. -/
structure PyHost where
  /-- `sys.get_int_max_str_digits()`; 0 is no limit. -/
  maxStrDigits : Nat
  /-- The interpreter takes no other limit. -/
  maxStrDigits_valid : maxStrDigits = 0 ∨ 640 ≤ maxStrDigits
  reprFloat : PyFloat → PyStr
  reprFloat_plain : ∀ x, (reprFloat x).Plain
  /-- `repr` of a text: quoted, and escaped where it would not print. -/
  reprStr : PyStr → PyStr
  reprStr_plain : ∀ s, (reprStr s).Plain

/-! ## Integers -/

/-- The decimal digits of a number that is known to be small. -/
def natText (n : Nat) : PyStr := .ofList (Nat.toDigits 10 n)

namespace PyHost

variable (host : PyHost)

/-- The integer has no more digits than the limit allows. -/
def Fits (z : Int) : Prop :=
  host.maxStrDigits = 0 ∨ (Nat.toDigits 10 z.natAbs).length ≤ host.maxStrDigits

instance (z : Int) : Decidable (host.Fits z) :=
  inferInstanceAs (Decidable (_ ∨ _))

/-- `str(z)`. -/
def intText (z : Int) : Except PyExc PyStr :=
  if host.Fits z then
    .ok (if z < 0 then .concat ["-", natText z.natAbs] else natText z.natAbs)
  else
    .error (.valueError ("Exceeds the limit ( digits) for integer string conversion; " ++
      "use sys.set_int_max_str_digits() to increase the limit") [.int host.maxStrDigits])

end PyHost

/-! ## `repr` and `str` -/

namespace PyHost

mutual

def repr (host : PyHost) : PyVal → Except PyExc PyStr
  | .none => .ok "None"
  | .bool b => .ok (if b then "True" else "False")
  | .int z => host.intText z
  | .float x => .ok (host.reprFloat x)
  | .str s => .ok (host.reprStr s)
  | .list l => do return .concat ["[", .join ", " (← host.reprItems l), "]"]
  | .dict d => do return .concat ["\x7b", .join ", " (← host.reprPairs d), "\x7d"]

def reprItems (host : PyHost) : List PyVal → Except PyExc (List PyStr)
  | [] => .ok []
  | v :: rest => do
      let first ← host.repr v
      return first :: (← host.reprItems rest)

def reprPairs (host : PyHost) : List (PyStr × PyVal) → Except PyExc (List PyStr)
  | [] => .ok []
  | (key, v) :: rest => do
      let first ← host.repr v
      return .concat [host.reprStr key, ": ", first] :: (← host.reprPairs rest)

end

/-- `str(v)`: a text is itself. -/
def str (host : PyHost) : PyVal → Except PyExc PyStr
  | .str s => .ok s
  | v => host.repr v

end PyHost

mutual

/-- The integers that `str(v)` writes. -/
def PyVal.ints : PyVal → List Int
  | .int z => [z]
  | .list l => itemsInts l
  | .dict d => pairsInts d
  | _ => []

def itemsInts : List PyVal → List Int
  | [] => []
  | v :: rest => v.ints ++ itemsInts rest

def pairsInts : List (PyStr × PyVal) → List Int
  | [] => []
  | (_, v) :: rest => v.ints ++ pairsInts rest

end

/-! ## f-strings -/

/-- A part of an f-string: a text of its own, or a value that `str` writes. -/
inductive Piece where
  | lit (s : PyStr)
  | val (v : PyVal)

instance : Coe String Piece := ⟨fun s => .lit s⟩

/-- A count of objects in memory, far below every limit. -/
def Piece.count (n : Nat) : Piece := .lit (natText n)

namespace PyHost

variable (host : PyHost)

def piece : Piece → Except PyExc PyStr
  | .lit s => .ok s
  | .val v => host.str v

def fstring (pieces : List Piece) : Except PyExc PyStr := do
  return .concat (← pieces.mapM host.piece)

end PyHost

/-! ## When a text can be written -/

section Texts

variable {host : PyHost}

/-- The limit in numbers. -/
theorem PyHost.fits_iff {z : Int} :
    host.Fits z ↔ host.maxStrDigits = 0 ∨ z.natAbs < 10 ^ host.maxStrDigits := by
  unfold Fits
  rcases Nat.eq_zero_or_pos host.maxStrDigits with h0 | hpos
  · exact iff_of_true (Or.inl h0) (Or.inl h0)
  · rw [Nat.length_toDigits_le_iff (by decide) hpos]

/-- No interpreter refuses a number of at most 640 digits. -/
theorem PyHost.fits_of_lt {z : Int} {k : Nat} (hk : k ≤ 640) (hz : z.natAbs < 10 ^ k) :
    host.Fits z := by
  rw [fits_iff]
  refine host.maxStrDigits_valid.imp_right fun hlimit => hz.trans_le ?_
  exact Nat.pow_le_pow_right (by decide) (hk.trans hlimit)

theorem PyHost.Fits.of_le {a b : Nat} (h : host.Fits b) (hab : a ≤ b) : host.Fits a := by
  rw [fits_iff] at h ⊢
  exact h.imp_right fun hb => lt_of_le_of_lt hab hb

theorem intText_ok_iff {z : Int} : (∃ t, host.intText z = .ok t) ↔ host.Fits z := by
  unfold PyHost.intText
  split
  · next hfits => exact iff_of_true ⟨_, rfl⟩ hfits
  · next hno => exact iff_of_false (fun ⟨_, h⟩ => by cases h) hno

theorem natText_plain (n : Nat) : (natText n).Plain := by
  intro c hc
  obtain ⟨d, hd, rfl⟩ := List.mem_map.mp hc
  refine ⟨rfl, fun hnl => ?_⟩
  have hdigit := Nat.isDigit_of_mem_toDigits (by decide) (by decide) hd
  rw [PyChar.scalar.inj hnl] at hdigit
  exact absurd hdigit (by decide)

theorem intText_plain {z : Int} {t : PyStr} (h : host.intText z = .ok t) : t.Plain := by
  unfold PyHost.intText at h
  split at h
  · obtain rfl := Except.ok.inj h
    split
    · refine over_concat.mpr fun s hs => ?_
      rcases List.mem_pair.mp hs with rfl | rfl
      · decide
      · exact natText_plain _
    · exact natText_plain _
  · cases h

mutual

/-- `repr` raises exactly when it meets an integer beyond the limit. -/
theorem repr_ok_iff : ∀ v : PyVal, (∃ t, host.repr v = .ok t) ↔ ∀ z ∈ v.ints, host.Fits z
  | .none => by simp [PyHost.repr, PyVal.ints]
  | .bool _ => by simp [PyHost.repr, PyVal.ints]
  | .int z => by simpa [PyHost.repr, PyVal.ints] using intText_ok_iff
  | .float _ => by simp [PyHost.repr, PyVal.ints]
  | .str _ => by simp [PyHost.repr, PyVal.ints]
  | .list l => by
      rw [PyVal.ints, ← reprItems_ok_iff l, PyHost.repr, exists_bind_ok]
      simp only [pure_eq_ok, exists_eq', and_true]
  | .dict d => by
      rw [PyVal.ints, ← reprPairs_ok_iff d, PyHost.repr, exists_bind_ok]
      simp only [pure_eq_ok, exists_eq', and_true]

theorem reprItems_ok_iff : ∀ l : List PyVal,
    (∃ ts, host.reprItems l = .ok ts) ↔ ∀ z ∈ itemsInts l, host.Fits z
  | [] => by simp [PyHost.reprItems, itemsInts]
  | v :: rest => by
      rw [itemsInts, List.forall_mem_append, ← repr_ok_iff v, ← reprItems_ok_iff rest,
        PyHost.reprItems]
      simp only [exists_bind_ok, pure_eq_ok, exists_eq', and_true, exists_and_right]

theorem reprPairs_ok_iff : ∀ d : List (PyStr × PyVal),
    (∃ ts, host.reprPairs d = .ok ts) ↔ ∀ z ∈ pairsInts d, host.Fits z
  | [] => by simp [PyHost.reprPairs, pairsInts]
  | (_, v) :: rest => by
      rw [pairsInts, List.forall_mem_append, ← repr_ok_iff v, ← reprPairs_ok_iff rest,
        PyHost.reprPairs]
      simp only [exists_bind_ok, pure_eq_ok, exists_eq', and_true, exists_and_right]

end

mutual

/-- What `repr` writes prints, on one line. -/
theorem repr_plain : ∀ (v : PyVal) {t : PyStr}, host.repr v = .ok t → t.Plain
  | .none, _, h => by obtain rfl := Except.ok.inj h; decide
  | .bool b, _, h => by obtain rfl := Except.ok.inj h; cases b <;> decide
  | .int _, _, h => intText_plain h
  | .float x, _, h => by obtain rfl := Except.ok.inj h; exact host.reprFloat_plain x
  | .str s, _, h => by obtain rfl := Except.ok.inj h; exact host.reprStr_plain s
  | .list l, _, h => by
      obtain ⟨ts, hts, h⟩ := bind_eq_ok.mp h
      obtain rfl := Except.ok.inj h
      have hjoin : (join ", " ts).Plain := (over_join (by decide)).mpr (reprItems_plain l hts)
      refine over_concat.mpr ?_
      simpa using ⟨by decide, hjoin, by decide⟩
  | .dict d, _, h => by
      obtain ⟨ts, hts, h⟩ := bind_eq_ok.mp h
      obtain rfl := Except.ok.inj h
      have hjoin : (join ", " ts).Plain := (over_join (by decide)).mpr (reprPairs_plain d hts)
      refine over_concat.mpr ?_
      simpa using ⟨by decide, hjoin, by decide⟩

theorem reprItems_plain : ∀ (l : List PyVal) {ts : List PyStr},
    host.reprItems l = .ok ts → ∀ t ∈ ts, t.Plain
  | [], _, h => by obtain rfl := Except.ok.inj h; simp
  | v :: rest, _, h => by
      obtain ⟨first, hfirst, h⟩ := bind_eq_ok.mp h
      obtain ⟨others, hothers, h⟩ := bind_eq_ok.mp h
      obtain rfl := Except.ok.inj h
      exact List.forall_mem_cons.mpr ⟨repr_plain v hfirst, reprItems_plain rest hothers⟩

theorem reprPairs_plain : ∀ (d : List (PyStr × PyVal)) {ts : List PyStr},
    host.reprPairs d = .ok ts → ∀ t ∈ ts, t.Plain
  | [], _, h => by obtain rfl := Except.ok.inj h; simp
  | (key, v) :: rest, _, h => by
      obtain ⟨first, hfirst, h⟩ := bind_eq_ok.mp h
      obtain ⟨others, hothers, h⟩ := bind_eq_ok.mp h
      obtain rfl := Except.ok.inj h
      refine List.forall_mem_cons.mpr ⟨over_concat.mpr ?_, reprPairs_plain rest hothers⟩
      simpa using ⟨host.reprStr_plain key, by decide, repr_plain v hfirst⟩

end

theorem str_ok_iff {v : PyVal} : (∃ t, host.str v = .ok t) ↔ ∀ z ∈ v.ints, host.Fits z := by
  cases v with
  | str s => simp [PyHost.str, PyVal.ints]
  | _ => exact repr_ok_iff _

theorem str_over_iff {P : PyChar → Prop} (hP : ∀ c, c.isScalar = true ∧ c ≠ newline → P c)
    {v : PyVal} {t : PyStr} (h : host.str v = .ok t) :
    t.Over P ↔ ∀ s, v = .str s → s.Over P := by
  cases v with
  | str s =>
      obtain rfl := Except.ok.inj h
      exact ⟨fun hs _ heq => PyVal.str.inj heq ▸ hs, fun hs => hs s rfl⟩
  | _ => exact iff_of_true ((repr_plain _ h).mono hP) fun s heq => by cases heq

/-! ## When an f-string can be written -/

variable {pieces : List Piece}

theorem fstring_ok_iff : (∃ t, host.fstring pieces = .ok t) ↔
    ∀ v, Piece.val v ∈ pieces → ∀ z ∈ v.ints, host.Fits z := by
  have hpiece : ∀ p, (∃ t, host.piece p = .ok t) ↔
      ∀ v, p = .val v → ∀ z ∈ v.ints, host.Fits z := by
    intro p
    cases p with
    | lit s => simp [PyHost.piece]
    | val v => simpa [PyHost.piece] using str_ok_iff
  rw [PyHost.fstring, exists_bind_ok]
  simp only [pure_eq_ok, exists_eq', and_true]
  rw [exists_mapM_ok]
  simp only [hpiece]
  exact ⟨fun h v hv => h _ hv v rfl, fun h p hp v heq => h v (heq ▸ hp)⟩

/-- Of the values of an f-string only the texts can bring characters that do not
print, or another line. -/
theorem fstring_over_iff {P : PyChar → Prop} (hP : ∀ c, c.isScalar = true ∧ c ≠ newline → P c)
    (hlit : ∀ s, Piece.lit s ∈ pieces → s.Over P) {t : PyStr}
    (h : host.fstring pieces = .ok t) :
    t.Over P ↔ ∀ s, Piece.val (.str s) ∈ pieces → s.Over P := by
  obtain ⟨parts, hparts, h⟩ := bind_eq_ok.mp h
  obtain rfl := Except.ok.inj h
  have hwritten := mapM_eq_ok_iff.mp hparts
  rw [over_concat]
  constructor
  · intro hall s hs
    obtain ⟨part, hpart, hpiece⟩ := exists_right_of_forall₂ hwritten hs
    have hstr : host.str (.str s) = .ok part := hpiece
    exact (str_over_iff hP hstr).mp (hall part hpart) s rfl
  · intro hall part hpart
    obtain ⟨p, hp, hpiece⟩ := exists_left_of_forall₂ hwritten hpart
    cases p with
    | lit s =>
        obtain rfl := Except.ok.inj hpiece
        exact hlit s hp
    | val v => exact (str_over_iff hP hpiece).mpr fun s heq => hall s (heq ▸ hp)

theorem fstring_startsWith {pre s : PyStr} (hlen : pre.chars.length ≤ s.chars.length)
    {t : PyStr} (h : host.fstring (.lit s :: pieces) = .ok t) :
    t.startsWith pre = s.startsWith pre := by
  obtain ⟨parts, hparts, h⟩ := bind_eq_ok.mp h
  obtain rfl := Except.ok.inj h
  obtain ⟨_, rest, hlit, -, rfl⟩ := List.forall₂_cons_left_iff.mp (mapM_eq_ok_iff.mp hparts)
  obtain rfl := Except.ok.inj hlit
  exact startsWith_concat rest hlen

end Texts

end Foundation
