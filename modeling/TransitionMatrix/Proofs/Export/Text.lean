import Std.Data.String.ToNat
import TransitionMatrix.Export.Lines

/-!
# Reading exported text

Exported text is taken apart again: at the ends of lines first, and every line at its blanks. Numbers
and weights are written without blanks and line ends, so that the fields come out as they went in,
whatever they say. Blocks of lines that follow one another are told apart by the number of lines that
the header of each announces.
-/

namespace TransitionMatrix

/-! ## Texts without blanks -/

namespace Export

/-- There is no blank in the text and no end of a line. -/
def Plain (s : String) : Prop := ' ' ∉ s.toList ∧ '\n' ∉ s.toList

instance (s : String) : Decidable (Plain s) :=
  inferInstanceAs (Decidable (' ' ∉ s.toList ∧ '\n' ∉ s.toList))

theorem Plain.append {s t : String} (hs : Plain s) (ht : Plain t) : Plain (s ++ t) := by
  obtain ⟨hs, hs'⟩ := hs
  obtain ⟨ht, ht'⟩ := ht
  unfold Plain
  rw [String.toList_append, List.mem_append, List.mem_append]
  exact ⟨fun h => h.elim hs ht, fun h => h.elim hs' ht'⟩

theorem plain_of_isDigit {s : String} (h : ∀ c ∈ s.toList, c.isDigit = true) : Plain s := by
  constructor
  · intro hmem
    have hdigit := h _ hmem
    revert hdigit
    decide
  · intro hmem
    have hdigit := h _ hmem
    revert hdigit
    decide

theorem isDigit_of_mem_repr {n : Nat} {c : Char} (h : c ∈ (toString n).toList) :
    c.isDigit = true := by
  have hrepr : (toString n).toList = Nat.toDigits 10 n := String.toList_ofList
  rw [hrepr] at h
  exact Nat.isDigit_of_mem_toDigits (by decide) (by decide) h

theorem plain_toString (n : Nat) : Plain (toString n) :=
  plain_of_isDigit fun _ => isDigit_of_mem_repr

theorem toNat?_toString (n : Nat) : (toString n).toNat? = some n := Nat.toNat?_repr n

end Export

namespace Decimal

theorem isDigit_of_mem_lastDigits {n places : Nat} {c : Char} (h : c ∈ lastDigits n places) :
    c.isDigit = true := by
  induction places generalizing n with
  | zero => cases h
  | succ places ih =>
    rw [lastDigits, List.mem_append, List.mem_singleton] at h
    rcases h with hmem | rfl
    · exact ih hmem
    · rw [Nat.isDigit_digitChar, decide_eq_true_eq]
      exact Nat.mod_lt n (by decide)

theorem mem_of_mem_dropZeros {digits : List Char} {c : Char} (h : c ∈ dropZeros digits) :
    c ∈ digits := by
  rw [dropZeros, List.mem_reverse] at h
  exact List.mem_reverse.1 ((List.dropWhile_sublist _).mem h)

theorem plain_positional (x : Decimal) : Export.Plain x.positional := by
  unfold positional
  split
  · exact Export.plain_toString _
  · dsimp only
    split
    · exact Export.plain_toString _
    · rename_i fraction _
      refine ((Export.plain_toString _).append (by decide)).append (Export.plain_of_isDigit ?_)
      intro c hc
      rw [String.toList_ofList] at hc
      exact isDigit_of_mem_lastDigits (mem_of_mem_dropZeros hc)

end Decimal

namespace Binary64

theorem plain_signText (w : Binary64) : Export.Plain w.signText := by
  unfold signText
  split
  · decide
  · decide

/-- A weight is written without blanks and line ends. -/
theorem plain_text (w : Binary64) : Export.Plain w.text := by
  unfold text
  split
  · decide
  · split
    · exact w.plain_signText.append (by decide)
    · split
      · exact w.plain_signText.append (by decide)
      · exact w.plain_signText.append (Decimal.plain_positional _)

end Binary64

namespace Export

/-! ## Fields -/

/-- The parts of a text before, between and after the places of a character. -/
def parts (c : Char) (s : String) : List String := (s.split c).toList.map (·.copy)

/-- The fields of a text of lines, each of which is ended. -/
def readFields (s : String) : List (List String) := (parts '\n' s).dropLast.map (parts ' ')

theorem parts_line {fields : List String} (hne : fields ≠ []) (h : ∀ s ∈ fields, ' ' ∉ s.toList) :
    parts ' ' (line fields) = fields := by
  have hparts := String.toList_split_intercalate h
  rw [if_neg hne] at hparts
  exact hparts

theorem text_eq_intercalate (lines : List (List String)) :
    text lines = (String.singleton '\n').intercalate (lines.map line ++ [""]) := by
  induction lines with
  | nil => rfl
  | cons fields rest ih =>
    rw [List.map_cons, List.cons_append, String.intercalate_cons_of_ne_nil (by simp), ← ih, text,
      List.map_cons, String.join_cons]
    rfl

theorem notMem_line {fields : List String} (h : ∀ s ∈ fields, Plain s) :
    '\n' ∉ (line fields).toList := by
  unfold line
  induction fields with
  | nil => simp
  | cons s rest ih =>
    obtain ⟨_, hs⟩ := h s List.mem_cons_self
    have hrest := ih fun s' hs' => h s' (List.mem_cons_of_mem _ hs')
    by_cases hnil : rest = []
    · rw [hnil, String.intercalate_singleton]
      exact hs
    · rw [String.intercalate_cons_of_ne_nil hnil, String.toList_append, String.toList_append,
        List.mem_append, List.mem_append]
      rintro ((hmem | hmem) | hmem)
      · exact hs hmem
      · revert hmem
        decide
      · exact hrest hmem

/-- The fields of exported text are those that were written. -/
theorem readFields_text {lines : List (List String)} (hne : ∀ fields ∈ lines, fields ≠ [])
    (h : ∀ fields ∈ lines, ∀ s ∈ fields, Plain s) : readFields (text lines) = lines := by
  have hlines : ∀ s ∈ lines.map line ++ [""], '\n' ∉ s.toList := by
    intro s hs
    rcases List.mem_append.1 hs with hmem | hmem
    · obtain ⟨fields, hfields, rfl⟩ := List.mem_map.1 hmem
      exact notMem_line (h fields hfields)
    · rw [List.mem_singleton.1 hmem]
      decide
  have hparts : parts '\n' (text lines) = lines.map line ++ [""] := by
    have hsplit := String.toList_split_intercalate hlines
    rw [if_neg (by simp)] at hsplit
    rw [text_eq_intercalate]
    exact hsplit
  rw [readFields, hparts, List.dropLast_concat, List.map_map]
  refine (List.map_congr_left fun fields hfields => ?_).trans (List.map_id lines)
  exact parts_line (hne fields hfields) fun s hs => (h fields hfields s hs).1

/-! ## Blocks -/

section Blocks

variable {η ε : Type} (readHeader : List String → Option (η × Nat))
  (readEntry : List String → Option ε)

/-- Reads a header and as many entries as it announces, and again until there are no more lines. -/
def readBlocks : List (List String) → Option (List (η × List ε))
  | [] => some []
  | header :: rest =>
    match readHeader header with
    | none => none
    | some (sizes, count) =>
      if rest.length < count then none
      else do
        let entries ← (rest.take count).mapM readEntry
        let later ← readBlocks (rest.drop count)
        return (sizes, entries) :: later
termination_by lines => lines.length
decreasing_by
  rw [List.length_drop, List.length_cons]
  omega

theorem mapM_eq_some {lines : List (List String)} {entries : List ε}
    (h : lines.map readEntry = entries.map some) : lines.mapM readEntry = some entries := by
  induction lines generalizing entries with
  | nil =>
    have hnil : entries = [] := by simpa using h.symm
    rw [hnil]
    rfl
  | cons fields rest ih =>
    cases entries with
    | nil => cases h
    | cons entry entries =>
      rw [List.map_cons, List.map_cons, List.cons.injEq] at h
      rw [List.mapM_cons, h.1, ih h.2]
      rfl

/-- A block is read whatever comes after it. -/
theorem readBlocks_append {header : List String} {lines : List (List String)} {sizes : η}
    {entries : List ε} (hheader : readHeader header = some (sizes, entries.length))
    (hlines : lines.map readEntry = entries.map some) (rest : List (List String)) :
    readBlocks readHeader readEntry (header :: lines ++ rest)
      = (readBlocks readHeader readEntry rest).map ((sizes, entries) :: ·) := by
  have hlength : lines.length = entries.length := by simpa using congrArg List.length hlines
  rw [List.cons_append, readBlocks, hheader]
  dsimp only
  rw [if_neg (by rw [List.length_append]; omega), ← hlength, List.take_left, List.drop_left,
    mapM_eq_some readEntry hlines]
  cases readBlocks readHeader readEntry rest with
  | none => rfl
  | some later => rfl

/-- Blocks that follow one another are read one after another. -/
theorem readBlocks_flatMap {β : Type} {header : β → List String} {lines : β → List (List String)}
    {sizes : β → η} {entries : β → List ε} {blocks : List β}
    (hheader : ∀ b ∈ blocks, readHeader (header b) = some (sizes b, (entries b).length))
    (hlines : ∀ b ∈ blocks, (lines b).map readEntry = (entries b).map some) :
    readBlocks readHeader readEntry (blocks.flatMap fun b => header b :: lines b)
      = some (blocks.map fun b => (sizes b, entries b)) := by
  induction blocks with
  | nil =>
    rw [List.flatMap_nil, readBlocks]
    rfl
  | cons b rest ih =>
    have hrest := ih (fun b' hb' => hheader b' (List.mem_cons_of_mem _ hb'))
      fun b' hb' => hlines b' (List.mem_cons_of_mem _ hb')
    rw [List.flatMap_cons, readBlocks_append readHeader readEntry (hheader b List.mem_cons_self)
      (hlines b List.mem_cons_self), hrest]
    rfl

end Blocks

end Export

end TransitionMatrix
