import Mathlib

/-!
# Texts of code points

A Python text is a sequence of code points. Not every text has an encoding: a
lone surrogate, which JSON can spell, is a code point without bytes in UTF-8.
-/

namespace Foundation

inductive PyChar where
  | scalar (c : Char)
  /-- `U+D800 + k`. -/
  | surrogate (k : Fin 2048)
deriving DecidableEq

def PyChar.isScalar : PyChar → Bool
  | .scalar _ => true
  | .surrogate _ => false

structure PyStr where
  chars : List PyChar
deriving DecidableEq

namespace PyStr

def ofList (l : List Char) : PyStr := ⟨l.map .scalar⟩

def ofString (s : String) : PyStr := ofList s.toList

instance : Coe String PyStr := ⟨ofString⟩

/-- `sep.join(parts)`. -/
def join (sep : PyStr) (parts : List PyStr) : PyStr :=
  ⟨sep.chars.intercalate (parts.map chars)⟩

def concat (parts : List PyStr) : PyStr := ⟨(parts.map chars).flatten⟩

/-- Whether the text has an encoding in UTF-8. -/
def encodable (s : PyStr) : Bool := s.chars.all (·.isScalar)

def newline : PyChar := .scalar '\n'

/-- `s.split("\n")`. -/
def lines (s : PyStr) : List PyStr := (s.chars.splitOn newline).map mk

/-- `s.startswith(pre)`. -/
def startsWith (s pre : PyStr) : Bool := pre.chars.isPrefixOf s.chars

/-! ## Texts over a kind of characters -/

/-- Every character of the text is of one kind. -/
def Over (P : PyChar → Prop) (s : PyStr) : Prop := ∀ c ∈ s.chars, P c

def OneLine (s : PyStr) : Prop := s.Over (· ≠ newline)

/-- The text prints, and on one line. -/
def Plain (s : PyStr) : Prop := s.Over fun c => c.isScalar = true ∧ c ≠ newline

instance {P : PyChar → Prop} [DecidablePred P] (s : PyStr) : Decidable (s.Over P) :=
  inferInstanceAs (Decidable (∀ c ∈ s.chars, P c))

instance (s : PyStr) : Decidable s.OneLine := inferInstanceAs (Decidable (s.Over _))

instance (s : PyStr) : Decidable s.Plain := inferInstanceAs (Decidable (s.Over _))

theorem Over.mono {P Q : PyChar → Prop} {s : PyStr} (h : s.Over P) (hPQ : ∀ c, P c → Q c) :
    s.Over Q :=
  fun c hc => hPQ c (h c hc)

theorem encodable_iff {s : PyStr} : s.encodable = true ↔ s.Over (·.isScalar = true) :=
  List.all_eq_true

theorem over_concat {P : PyChar → Prop} {parts : List PyStr} :
    (concat parts).Over P ↔ ∀ s ∈ parts, s.Over P := by
  constructor
  · intro h s hs c hc
    exact h c (List.mem_flatten.mpr ⟨_, List.mem_map_of_mem hs, hc⟩)
  · intro h c hc
    obtain ⟨_, hin, hc⟩ := List.mem_flatten.mp hc
    obtain ⟨s, hs, rfl⟩ := List.mem_map.mp hin
    exact h s hs c hc

/-- The first part decides how the text begins, if it is long enough. -/
theorem startsWith_concat {pre s : PyStr} (rest : List PyStr)
    (hlen : pre.chars.length ≤ s.chars.length) :
    (concat (s :: rest)).startsWith pre = s.startsWith pre := by
  have hchars : (concat (s :: rest)).chars = s.chars ++ (concat rest).chars := by
    simp [concat]
  rw [Bool.eq_iff_iff, startsWith, startsWith, hchars, List.isPrefixOf_iff_prefix,
    List.isPrefixOf_iff_prefix]
  constructor
  · exact fun hpre => List.prefix_of_prefix_length_le hpre (List.prefix_append _ _) hlen
  · exact fun hpre => hpre.trans (List.prefix_append _ _)

theorem join_cons {sep s : PyStr} {rest : List PyStr} (hne : rest ≠ []) :
    (join sep (s :: rest)).chars = s.chars ++ sep.chars ++ (join sep rest).chars := by
  have hmap : rest.map chars ≠ [] := fun hnil => hne (List.map_eq_nil_iff.mp hnil)
  rw [join, List.map_cons, List.intercalate_cons_of_ne_nil hmap]
  rfl

theorem over_join {P : PyChar → Prop} {sep : PyStr} (hsep : sep.Over P)
    {parts : List PyStr} : (join sep parts).Over P ↔ ∀ s ∈ parts, s.Over P := by
  induction parts with
  | nil => exact iff_of_true (fun c hc => absurd hc List.not_mem_nil) (by simp)
  | cons s rest ih =>
      rw [List.forall_mem_cons, ← ih]
      by_cases hne : rest = []
      · subst hne
        simp [join, Over]
      · unfold Over
        simp only [join_cons hne, List.mem_append]
        constructor
        · intro h
          exact ⟨fun c hc => h c (Or.inl (Or.inl hc)), fun c hc => h c (Or.inr hc)⟩
        · rintro ⟨hs, hrest⟩ c ((hc | hc) | hc)
          · exact hs c hc
          · exact hsep c hc
          · exact hrest c hc

/-! ## Lines -/

/-- Lines that were joined are read back, if none of them is broken. -/
theorem lines_join {parts : List PyStr} (hne : parts ≠ []) (h : ∀ s ∈ parts, s.OneLine) :
    (join "\n" parts).lines = parts := by
  have hbreak : (ofString "\n").chars = [newline] := rfl
  have hsplit : List.splitOn newline ([newline].intercalate (parts.map chars)) =
      parts.map chars := by
    refine List.splitOn_intercalate newline ?_ ?_
    · rintro l hl hmem
      obtain ⟨s, hs, rfl⟩ := List.mem_map.mp hl
      exact h s hs newline hmem rfl
    · exact fun hnil => hne (List.map_eq_nil_iff.mp hnil)
  rw [lines, join, hbreak, hsplit, List.map_map]
  exact List.map_id' parts

/-- The last of the joined lines is the last line, whatever the others hold. -/
theorem getLast?_lines_join {parts : List PyStr} {last : PyStr} (hlast : last.OneLine) :
    (join "\n" (parts ++ [last])).lines.getLast? = some last := by
  have hsingle : last.chars.splitOn newline = [last.chars] :=
    List.splitOn_eq_singleton fun hmem => hlast newline hmem rfl
  induction parts with
  | nil => simp [join, lines, hsingle]
  | cons s rest ih =>
      have hchars : (join "\n" (s :: (rest ++ [last]))).chars =
          s.chars ++ newline :: (join "\n" (rest ++ [last])).chars := by
        rw [join_cons (List.append_ne_nil_of_right_ne_nil _ (List.cons_ne_nil _ _)),
          List.append_assoc]
        rfl
      unfold lines at ih ⊢
      rw [List.cons_append, hchars, List.splitOn_append_cons_self, List.map_append,
        List.getLast?_append, ih]
      rfl

end PyStr

end Foundation
