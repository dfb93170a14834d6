import SymbolGraph.Text.LineIndex
import Mathlib.Data.List.DropRight

/-!
# Proofs — Text — cutting a text at a byte offset

A byte offset cuts a text into the characters that end at or before it and the others; it may fall
`inside` the first of the others.  The cut says what every measure of the text is at that offset: how
many newlines lie before it, where its line starts, and whether a slice that ends there exists.

* `Cut`: a text, cut at a byte offset; `exists_cut` gives one for every offset of the text.
* `Cut.prefix_of_le`: a later offset cuts off more.
* `slice_eq`: the slice from the start of a line exists when its end is a boundary.
* `countP_starts`, `getD_starts`: the table of line starts, read at a cut.
-/

namespace SymbolGraph.Text

/-! ### Bytes and code units -/

/-- The bytes of a text are those of its parts. -/
@[simp] theorem byteLength_append : ∀ a b : List Char,
    byteLength (a ++ b) = byteLength a + byteLength b
  | [], b => by simp [byteLength]
  | c :: a, b => by simp [byteLength, byteLength_append a b, Nat.add_assoc]

/-- The code units of a text are those of its parts. -/
@[simp] theorem units_append : ∀ a b : List Char, units (a ++ b) = units a + units b
  | [], b => by simp [units]
  | c :: a, b => by simp [units, units_append a b, Nat.add_assoc]

/-- A character has a code unit. -/
theorem unitWidth_pos (c : Char) : 0 < unitWidth c := by
  unfold unitWidth
  split <;> decide

/-- A character beyond the basic plane takes two code units and four bytes. -/
theorem unitWidth_le_utf8Size (c : Char) : unitWidth c ≤ c.utf8Size := by
  have hsize := c.utf8Size_pos
  unfold unitWidth
  split
  · exact hsize
  next hbeyond =>
    have hover : ∀ bound : UInt32, bound ≤ 0xFFFF → ¬ c.val ≤ bound := fun bound hbound hle =>
      hbeyond (Nat.lt_succ_of_le (UInt32.le_iff_toNat_le.mp (UInt32.le_trans hle hbound)))
    rw [Char.utf8Size, if_neg (hover _ (by decide)), if_neg (hover _ (by decide)),
      if_neg (hover _ (by decide))]
    decide

/-- A text has no more code units than bytes. -/
theorem units_le_byteLength : ∀ text : List Char, units text ≤ byteLength text
  | []        => Nat.le_refl 0
  | c :: text => Nat.add_le_add (unitWidth_le_utf8Size c) (units_le_byteLength text)

/-- A text that is not empty has code units. -/
theorem units_pos {text : List Char} (h : text ≠ []) : 0 < units text := by
  obtain ⟨c, rest, rfl⟩ := List.exists_cons_of_ne_nil h
  have hc := unitWidth_pos c
  simp only [units]
  omega

/-! ### Cuts -/

/-- The text is cut at `offset` into `before` and `after`, `inside` bytes deep into the first
character of `after`. -/
structure Cut (text : List Char) (offset : Nat) (before after : List Char) (inside : Nat) :
    Prop where
  text_eq   : text = before ++ after
  offset_eq : offset = byteLength before + inside
  inside_lt : ∀ c ∈ after.head?, inside < c.utf8Size
  at_end    : after = [] → inside = 0

/-- The offset falls between two characters of the text, or at one of its ends. -/
def IsBoundary (text : List Char) (offset : Nat) : Prop :=
  ∃ before after, text = before ++ after ∧ offset = byteLength before

/-- Between two parts of a text is a boundary. -/
theorem cut_at_boundary (before after : List Char) :
    Cut (before ++ after) (byteLength before) before after 0 :=
  ⟨rfl, rfl, fun c _ => c.utf8Size_pos, fun _ => rfl⟩

/-- Every offset of a text cuts it. -/
theorem exists_cut : ∀ {text : List Char} {offset : Nat}, offset ≤ byteLength text →
    ∃ before after inside, Cut text offset before after inside
  | text, 0, _ => ⟨[], text, 0, cut_at_boundary [] text⟩
  | [], n + 1, h => absurd h (Nat.not_succ_le_zero n)
  | c :: text, n + 1, h => by
      by_cases hfits : c.utf8Size ≤ n + 1
      · have hrest : n + 1 - c.utf8Size ≤ byteLength text := by
          simp only [byteLength] at h
          omega
        obtain ⟨before, after, inside, hcut⟩ := exists_cut hrest
        refine ⟨c :: before, after, inside, ?_, ?_, hcut.inside_lt, hcut.at_end⟩
        · rw [hcut.text_eq, List.cons_append]
        · have hoffset := hcut.offset_eq
          simp only [byteLength]
          omega
      · refine ⟨[], c :: text, n + 1, rfl, (Nat.zero_add _).symm, ?_, fun hnil => nomatch hnil⟩
        intro d hd
        obtain rfl : c = d := by simpa using hd
        omega

namespace Cut

variable {text before after before' after' : List Char} {offset offset' inside inside' : Nat}

/-- A later offset cuts off more. -/
theorem prefix_of_le (h : Cut text offset before after inside)
    (h' : Cut text offset' before' after' inside') (hle : offset ≤ offset') : before <+: before' := by
  have hprefix : before <+: text := ⟨after, h.text_eq.symm⟩
  have hprefix' : before' <+: text := ⟨after', h'.text_eq.symm⟩
  obtain hshort | ⟨more, rfl⟩ := List.prefix_or_prefix_of_prefix hprefix hprefix'
  · exact hshort
  · cases more with
    | nil => simp
    | cons c more =>
        -- the character after `before'` lies before `offset`, yet `offset'` does not reach its end
        have hafter : after' = c :: (more ++ after) := by
          have htext := h'.text_eq.symm.trans h.text_eq
          simpa using htext
        have hinside := h'.inside_lt c (by rw [hafter]; rfl)
        have hoffset := h.offset_eq
        have hoffset' := h'.offset_eq
        simp only [byteLength_append, byteLength] at hoffset
        omega

/-- There is one way to cut a text at an offset. -/
theorem unique (h : Cut text offset before after inside)
    (h' : Cut text offset before' after' inside') : before = before' ∧ inside = inside' := by
  have hbefore := (h.prefix_of_le h' (Nat.le_refl _)).eq_of_length_le
    (h'.prefix_of_le h (Nat.le_refl _)).length_le
  have hoffset := h.offset_eq.symm.trans h'.offset_eq
  rw [hbefore] at hoffset
  exact ⟨hbefore, Nat.add_left_cancel hoffset⟩

/-- An offset is a boundary where the cut falls into no character. -/
theorem isBoundary_iff (h : Cut text offset before after inside) :
    IsBoundary text offset ↔ inside = 0 := by
  constructor
  · rintro ⟨front, back, rfl, rfl⟩
    exact (h.unique (cut_at_boundary front back)).2
  · rintro rfl
    exact ⟨before, after, h.text_eq, h.offset_eq⟩

/-- A cut falls no later than the end of the text. -/
theorem offset_le (h : Cut text offset before after inside) : offset ≤ byteLength text := by
  have hoffset := h.offset_eq
  rw [h.text_eq, byteLength_append]
  cases after with
  | nil =>
      have hinside := h.at_end rfl
      simp only [byteLength]
      omega
  | cons c after =>
      have hinside := h.inside_lt c rfl
      simp only [byteLength]
      omega

end Cut

/-! ### Slices -/

/-- Dropping the bytes of the first part leaves the second. -/
theorem dropBytes_append : ∀ before after : List Char,
    dropBytes (byteLength before) (before ++ after) = some after
  | [], after => by cases after <;> rfl
  | c :: before, after => by
      obtain ⟨n, hn⟩ : ∃ n, c.utf8Size + byteLength before = n + 1 :=
        Nat.exists_eq_add_one.mpr (Nat.add_pos_left c.utf8Size_pos _)
      have hrest : n + 1 - c.utf8Size = byteLength before := by omega
      rw [byteLength, hn, List.cons_append, dropBytes, if_pos (by omega), hrest,
        dropBytes_append before after]

/-- Up to an offset there is a text when the offset is a boundary. -/
theorem takeBytes_eq : ∀ {before text after : List Char} {offset inside : Nat},
    Cut text offset before after inside →
    takeBytes offset text = if inside = 0 then some before else none
  -- The induction is on what comes before the cut: at its end the offset is a boundary exactly when
  -- no bytes of the next character are left over.
  | [], text, after, offset, inside, h => by
      obtain rfl : text = after := by simpa using h.text_eq
      obtain rfl : offset = inside := by simpa [byteLength] using h.offset_eq
      cases offset with
      | zero => cases text <;> rfl
      | succ n =>
          cases text with
          | nil => exact absurd (h.at_end rfl) (Nat.succ_ne_zero n)
          | cons c text =>
              have hinside := h.inside_lt c rfl
              rw [takeBytes, if_neg (by omega), if_neg (Nat.succ_ne_zero n)]
  | c :: before, text, after, offset, inside, h => by
      obtain rfl := h.text_eq
      obtain ⟨n, hn⟩ : ∃ n, offset = n + 1 := by
        have hsize := c.utf8Size_pos
        have hoffset := h.offset_eq
        simp only [byteLength] at hoffset
        exact Nat.exists_eq_add_one.mpr (by omega)
      have hoffset := h.offset_eq
      simp only [byteLength] at hoffset
      have hrest : Cut (before ++ after) (n + 1 - c.utf8Size) before after inside :=
        ⟨rfl, by omega, h.inside_lt, h.at_end⟩
      rw [hn, List.cons_append, takeBytes, if_pos (by omega), takeBytes_eq hrest]
      split <;> rfl

/-- The slice from a boundary to a later offset exists when that is a boundary too. -/
theorem slice_eq {head line after : List Char} {offset inside : Nat}
    (h : Cut (head ++ line ++ after) offset (head ++ line) after inside) :
    slice (byteLength head) offset (head ++ line ++ after)
      = if inside = 0 then some line else none := by
  have hoffset := h.offset_eq
  rw [byteLength_append] at hoffset
  have hrest : Cut (line ++ after) (offset - byteLength head) line after inside :=
    ⟨rfl, by omega, h.inside_lt, h.at_end⟩
  rw [slice, if_pos (by omega), List.append_assoc, dropBytes_append, Option.bind_some,
    takeBytes_eq hrest]

/-! ### Lines -/

/-- What follows the last newline. -/
def lastLine (text : List Char) : List Char := text.rtakeWhile fun c => c ≠ '\n'

/-- The lines before the last one, with their newlines. -/
def fullLines (text : List Char) : List Char := text.rdropWhile fun c => c ≠ '\n'

/-- A text is its full lines and what follows them. -/
theorem fullLines_append_lastLine (text : List Char) : fullLines text ++ lastLine text = text :=
  List.rdropWhile_append_rtakeWhile

/-- What follows the last newline has none. -/
theorem newline_not_mem_lastLine (text : List Char) : '\n' ∉ lastLine text := fun h => by
  simpa using List.mem_rtakeWhile_imp h

/-- Full lines end with a newline, unless there are none. -/
theorem fullLines_cases (text : List Char) :
    fullLines text = [] ∨ ∃ lines, fullLines text = lines ++ ['\n'] := by
  by_cases hnil : fullLines text = []
  · exact .inl hnil
  · have hlast : (fullLines text).getLast hnil = '\n' := by
      simpa [fullLines] using List.rdropWhile_last_not (fun c => decide (c ≠ '\n')) text hnil
    refine .inr ⟨(fullLines text).dropLast, ?_⟩
    conv_lhs => rw [← List.dropLast_append_getLast hnil, hlast]

/-- Without a newline the last line goes on. -/
theorem lastLine_append {text more : List Char} (h : '\n' ∉ more) :
    lastLine (text ++ more) = lastLine text ++ more := by
  have hall : ∀ c ∈ more.reverse, decide (c ≠ '\n') = true := fun c hc => by
    simpa using fun hc' : c = '\n' => h (hc' ▸ List.mem_reverse.mp hc)
  rw [lastLine, List.rtakeWhile, List.reverse_append, List.takeWhile_append_of_pos hall,
    List.reverse_append, List.reverse_reverse]
  rfl

end SymbolGraph.Text

namespace SymbolGraph.LineIndex

open Text

/-! ### The table of line starts -/

/-- The starts of lines in a text are those in its parts, the later ones moved on. -/
theorem startsAfter_append : ∀ (offset : Nat) (before after : List Char),
    startsAfter offset (before ++ after)
      = startsAfter offset before ++ startsAfter (offset + byteLength before) after
  | _, [], _ => rfl
  | offset, c :: before, after => by
      have hrest := startsAfter_append (offset + c.utf8Size) before after
      rw [Nat.add_assoc] at hrest
      simp only [List.cons_append, startsAfter, hrest, byteLength]
      split <;> rfl

/-- A line starts after its newline, thus past the first character. -/
theorem lt_of_mem_startsAfter : ∀ {text : List Char} {offset start : Nat},
    start ∈ startsAfter offset text →
      (∀ c ∈ text.head?, offset + c.utf8Size ≤ start) ∧ start ≤ offset + byteLength text
  | c :: text, offset, start, h => by
      have hlater : start ∈ startsAfter (offset + c.utf8Size) text →
          offset + c.utf8Size ≤ start ∧ start ≤ offset + byteLength (c :: text) := fun hmem => by
        obtain ⟨hfirst, hle⟩ := lt_of_mem_startsAfter hmem
        simp only [byteLength]
        cases text with
        | nil => exact nomatch hmem
        | cons d text =>
            have := hfirst d rfl
            omega
      have hstart : offset + c.utf8Size ≤ start ∧ start ≤ offset + byteLength (c :: text) := by
        simp only [startsAfter] at h
        split at h
        · rcases List.mem_cons.mp h with rfl | h
          · simp only [byteLength]
            omega
          · exact hlater h
        · exact hlater h
      refine ⟨fun d hd => ?_, hstart.2⟩
      obtain rfl : c = d := by simpa using hd
      exact hstart.1

/-- Every newline starts a line. -/
theorem length_startsAfter : ∀ (offset : Nat) (text : List Char),
    (startsAfter offset text).length = text.count '\n'
  | _, [] => rfl
  | offset, c :: text => by
      simp only [startsAfter, List.count_cons]
      split <;> simp_all [length_startsAfter]

/-- The lines that start at or before an offset: the first one, and one for every newline before
it. -/
theorem countP_starts {text : String} {before after : List Char} {offset inside : Nat}
    (h : Cut text.toList offset before after inside) :
    (ofText text).starts.countP (fun start => start ≤ offset) = before.count '\n' + 1 := by
  have hbefore : (startsAfter 0 before).countP (fun start => start ≤ offset)
      = before.count '\n' := by
    rw [List.countP_eq_length.mpr, length_startsAfter]
    intro start hstart
    have := (lt_of_mem_startsAfter hstart).2
    have := h.offset_eq
    exact decide_eq_true (by omega)
  have hafter : (startsAfter (byteLength before) after).countP (fun start => start ≤ offset)
      = 0 := by
    refine List.countP_eq_zero.mpr fun start hstart => ?_
    cases after with
    | nil => exact nomatch hstart
    | cons c after =>
        have := (lt_of_mem_startsAfter hstart).1 c rfl
        have := h.inside_lt c rfl
        have := h.offset_eq
        simp only [decide_eq_true_eq]
        omega
  rw [ofText, h.text_eq, startsAfter_append, Nat.zero_add,
    List.countP_cons_of_pos (by simp), List.countP_append, hbefore, hafter, Nat.add_zero]

/-- The line of the last newline before an offset starts right after that newline. -/
theorem getD_starts {text : String} {before after : List Char}
    (h : text.toList = before ++ after) :
    (ofText text).starts.getD (before.count '\n') 0 = byteLength (fullLines before) := by
  have hnone : (lastLine before).count '\n' = 0 :=
    List.count_eq_zero.mpr (newline_not_mem_lastLine before)
  have hcut := fullLines_append_lastLine before
  have hcount : before.count '\n' = (fullLines before).count '\n' := by
    conv_lhs => rw [← hcut, List.count_append, hnone, Nat.add_zero]
  rw [hcount, ofText, h, ← hcut, List.append_assoc]
  simp only [hcut]
  obtain hfirst | ⟨lines, hlines⟩ := fullLines_cases before
  · rw [hfirst]
    rfl
  · have hlength : (startsAfter 0 lines).length = lines.count '\n' := length_startsAfter 0 lines
    rw [hlines, List.append_assoc, startsAfter_append, List.count_append]
    simp [startsAfter, ← hlength, byteLength]

end SymbolGraph.LineIndex
