import SymbolGraph.Proofs.Text.Cuts

/-!
# Proofs — Text — positions of byte offsets

The position of a boundary counts the newlines before it and the code units of its line up to it.
Positions keep the order of boundaries.  An offset inside a character counts the bytes of its line
instead, which are never fewer than the code units; so of the two ends of a byte range it is only a
start inside a character that can come out after its end.

* `position_eq`: the position at a cut.
* `position_exact`: positions of boundaries are exact and keep their order.
* `lineRange_inverted_iff`: the byte ranges whose line range ends before it starts.
-/

namespace SymbolGraph

/-- The first position comes before the second, by line and then by character. -/
def Position.Before (p q : Position) : Prop :=
  p.line < q.line ∨ p.line = q.line ∧ p.character < q.character

instance (p q : Position) : Decidable (p.Before q) := inferInstanceAs (Decidable (_ ∨ _))

theorem Position.Before.ne {p q : Position} (h : p.Before q) : p ≠ q := by
  rintro rfl
  unfold Position.Before at h
  omega

namespace LineIndex

open Text

/-! ### The position at a cut -/

/-- The character of an offset on its line: code units up to a boundary, bytes otherwise. -/
def characterAt (before : List Char) (inside : Nat) : Nat :=
  if inside = 0 then units (lastLine before) else byteLength (lastLine before) + inside

theorem position_eq {text : String} {before after : List Char} {offset inside : Nat}
    (h : Cut text.toList offset before after inside) :
    (ofText text).position offset = ⟨before.count '\n', characterAt before inside⟩ := by
  have hline : (ofText text).lineOf offset = before.count '\n' := by
    rw [lineOf, countP_starts h, Nat.add_sub_cancel]
  have hslice : slice (byteLength (fullLines before)) offset text.toList
      = if inside = 0 then some (lastLine before) else none := by
    have hcut : text.toList = fullLines before ++ lastLine before ++ after := by
      rw [fullLines_append_lastLine, h.text_eq]
    rw [← fullLines_append_lastLine before, hcut] at h
    rw [hcut, slice_eq h]
  have hoffset : offset = byteLength (fullLines before) + byteLength (lastLine before) + inside := by
    rw [← byteLength_append, fullLines_append_lastLine, h.offset_eq]
  have hlength : (ofText text).text = text.toList := rfl
  rw [position, hlength, Nat.min_eq_left h.offset_le]
  simp only [hline, getD_starts h.text_eq, hslice, characterAt]
  by_cases hinside : inside = 0
  · simp [hinside]
  · simp only [hinside, if_false, Position.mk.injEq, true_and]
    omega

/-- An offset past the end stands for the end. -/
theorem position_min (text : String) (offset : Nat) :
    (ofText text).position offset
      = (ofText text).position (min offset (byteLength text.toList)) := by
  have hlength : (ofText text).text = text.toList := rfl
  rw [position, position, hlength, Nat.min_assoc, Nat.min_self]

theorem characterAt_le (before : List Char) (inside : Nat) :
    characterAt before inside ≤ byteLength before + inside := by
  have hunits := units_le_byteLength (lastLine before)
  have hbytes : byteLength (lastLine before) ≤ byteLength before := by
    conv_rhs => rw [← fullLines_append_lastLine before, byteLength_append]
    omega
  unfold characterAt
  split <;> omega

theorem count_le_byteLength : ∀ text : List Char, text.count '\n' ≤ byteLength text
  | []        => Nat.le_refl 0
  | c :: text => by
      have hrest := count_le_byteLength text
      have hsize := c.utf8Size_pos
      rw [List.count_cons, byteLength]
      split <;> omega

/-- Neither part of a position exceeds the length of the text. -/
theorem position_le (text : String) (offset : Nat) :
    ((ofText text).position offset).line ≤ byteLength text.toList ∧
      ((ofText text).position offset).character ≤ byteLength text.toList := by
  obtain ⟨before, after, inside, hcut⟩ :=
    exists_cut (Nat.min_le_right offset (byteLength text.toList))
  have hoffset := hcut.offset_eq
  have hle := hcut.offset_le
  have hline := count_le_byteLength before
  have hcharacter := characterAt_le before inside
  rw [position_min, position_eq hcut]
  exact ⟨by dsimp only; omega, by dsimp only; omega⟩

/-! ### Order -/

/-- What is cut off in addition holds a newline, or it continues the line. -/
theorem cut_line_cases (before more : List Char) :
    ('\n' ∈ more ∧ before.count '\n' < (before ++ more).count '\n') ∨
      ('\n' ∉ more ∧ (before ++ more).count '\n' = before.count '\n' ∧
        lastLine (before ++ more) = lastLine before ++ more) := by
  rw [List.count_append]
  by_cases hmem : '\n' ∈ more
  · exact .inl ⟨hmem, Nat.lt_add_of_pos_right (List.count_pos_iff.mpr hmem)⟩
  · exact .inr ⟨hmem, by rw [List.count_eq_zero.mpr hmem, Nat.add_zero], lastLine_append hmem⟩

/-- Positions keep the order of boundaries. -/
theorem position_before {text : String} {o₁ o₂ : Nat} (h₁ : IsBoundary text.toList o₁)
    (h₂ : IsBoundary text.toList o₂) (hlt : o₁ < o₂) :
    ((ofText text).position o₁).Before ((ofText text).position o₂) := by
  obtain ⟨before, after, htext, rfl⟩ := h₁
  obtain ⟨before', after', htext', rfl⟩ := h₂
  have hcut : Cut text.toList _ before after 0 := htext ▸ cut_at_boundary before after
  have hcut' : Cut text.toList _ before' after' 0 := htext' ▸ cut_at_boundary before' after'
  obtain ⟨more, rfl⟩ := hcut.prefix_of_le hcut' hlt.le
  have hmore : more ≠ [] := by
    rintro rfl
    simp at hlt
  rw [position_eq hcut, position_eq hcut']
  obtain ⟨-, hline⟩ | ⟨-, hline, hlast⟩ := cut_line_cases before more
  · exact .inl hline
  · refine .inr ⟨hline.symm, ?_⟩
    have hunits := units_pos hmore
    simp only [characterAt, if_true, hlast, units_append]
    omega

/-- In a text of less than 2³² bytes the position of a boundary has as its line the number of
newlines before it, and as its character the number of code units since the last of them; an offset
past the end has the position of the end; of two boundaries the earlier has the earlier position, so
that no two share one; and every position fits into two words of 32 bits. -/
theorem position_exact (text : String) (hshort : byteLength text.toList < UInt32.size) :
    (∀ before after, text.toList = before ++ after →
      (ofText text).position (byteLength before)
        = ⟨before.count '\n', units (before.rtakeWhile fun c => c ≠ '\n')⟩) ∧
    (∀ offset, byteLength text.toList ≤ offset →
      (ofText text).position offset = (ofText text).position (byteLength text.toList)) ∧
    (∀ o₁ o₂, IsBoundary text.toList o₁ → IsBoundary text.toList o₂ → o₁ < o₂ →
      ((ofText text).position o₁).Before ((ofText text).position o₂)) ∧
    (∀ o₁ o₂, IsBoundary text.toList o₁ → IsBoundary text.toList o₂ →
      (ofText text).position o₁ = (ofText text).position o₂ → o₁ = o₂) ∧
    ∀ offset, ((ofText text).position offset).line < UInt32.size ∧
      ((ofText text).position offset).character < UInt32.size := by
  refine ⟨fun before after htext => ?_, fun offset hpast => ?_, fun o₁ o₂ => position_before,
    fun o₁ o₂ h₁ h₂ heq => ?_, fun offset => ?_⟩
  · exact position_eq (htext ▸ cut_at_boundary before after)
  · rw [position_min, Nat.min_eq_right hpast]
  · rcases Nat.lt_trichotomy o₁ o₂ with hlt | hoffset | hlt
    · exact absurd heq (position_before h₁ h₂ hlt).ne
    · exact hoffset
    · exact absurd heq.symm (position_before h₂ h₁ hlt).ne
  · obtain ⟨hline, hcharacter⟩ := position_le text offset
    exact ⟨hline.trans_lt hshort, hcharacter.trans_lt hshort⟩

/-- A text with characters of one, two and four bytes on two lines: the offset after the character
of four bytes, the one after the newline, and one past the end. -/
theorem wideCharacters_position_exact :
    byteLength "é😀\nx".toList < UInt32.size ∧
      (ofText "é😀\nx").position 6 = ⟨0, 3⟩ ∧ (ofText "é😀\nx").position 7 = ⟨1, 0⟩ ∧
      (ofText "é😀\nx").position 40 = (ofText "é😀\nx").position 8 ∧
      ((ofText "é😀\nx").position 6).Before ((ofText "é😀\nx").position 7) := by
  have hshort : byteLength "é😀\nx".toList < UInt32.size := by decide
  obtain ⟨hexact, hend, hbefore, -, -⟩ := position_exact "é😀\nx" hshort
  exact ⟨hshort, hexact ['é', '😀'] ['\n', 'x'] rfl, hexact ['é', '😀', '\n'] ['x'] rfl,
    hend 40 (by decide),
    hbefore 6 7 ⟨['é', '😀'], ['\n', 'x'], rfl, rfl⟩ ⟨['é', '😀', '\n'], ['x'], rfl, rfl⟩
      (by decide)⟩

/-! ### Line ranges -/

/-- Positions turn the order of two offsets around when only the earlier one counts bytes, and the
later one, on the same line, fewer code units than that. -/
theorem position_inverted_iff {text : String} {before more after after' : List Char}
    {o₁ o₂ inside inside' : Nat} (h₁ : Cut text.toList o₁ before after inside)
    (h₂ : Cut text.toList o₂ (before ++ more) after' inside') (hle : o₁ ≤ o₂) :
    ((ofText text).position o₂).Before ((ofText text).position o₁) ↔
      '\n' ∉ more ∧ inside ≠ 0 ∧ inside' = 0 ∧
        units (lastLine before ++ more) < byteLength (lastLine before) + inside := by
  have ho₁ := h₁.offset_eq
  have ho₂ := h₂.offset_eq
  have hunits := units_le_byteLength (lastLine before)
  have hunits' := units_le_byteLength more
  rw [position_eq h₁, position_eq h₂]
  unfold Position.Before characterAt
  obtain ⟨hmem, hline⟩ | ⟨hmem, hline, hlast⟩ := cut_line_cases before more
  · simp only [hmem, not_true_eq_false, false_and, iff_false]
    omega
  · simp only [byteLength_append] at ho₂
    simp only [hmem, hline, hlast, units_append, byteLength_append, not_false_eq_true, true_and]
    -- two boundaries count units and two other offsets bytes, in order either way
    split_ifs <;> omega

/-- In a text of less than 2³² bytes a line range ends before it starts exactly when the byte range
starts inside a character and ends, clamped to the text, at a boundary of the same line that has fewer
code units before it on that line than there are bytes before the start; and, inverted or not, both of
its ends fit into two words of 32 bits. -/
theorem lineRange_inverted_iff (text : String) (hshort : byteLength text.toList < UInt32.size)
    (range : TextRange) :
    (((ofText text).lineRange range).stop.Before ((ofText text).lineRange range).start ↔
      ¬ IsBoundary text.toList range.start ∧
      ∃ head line rest, text.toList = head ++ line ++ rest ∧
        (head = [] ∨ ∃ lines, head = lines ++ ['\n']) ∧ '\n' ∉ line ∧
        min range.stop (byteLength text.toList) = byteLength (head ++ line) ∧
        range.start < byteLength (head ++ line) ∧
        byteLength head + units line < range.start) ∧
    (((ofText text).lineRange range).start.line < UInt32.size ∧
      ((ofText text).lineRange range).start.character < UInt32.size) ∧
    ((ofText text).lineRange range).stop.line < UInt32.size ∧
      ((ofText text).lineRange range).stop.character < UInt32.size := by
  have hordered := range.ordered
  have hfits (offset : Nat) : ((ofText text).position offset).line < UInt32.size ∧
      ((ofText text).position offset).character < UInt32.size := by
    obtain ⟨hline, hcharacter⟩ := position_le text offset
    exact ⟨hline.trans_lt hshort, hcharacter.trans_lt hshort⟩
  refine ⟨?_, hfits range.start, hfits range.stop⟩
  rw [lineRange, position_min text range.stop]
  obtain ⟨before', after', inside', hstop⟩ :=
    exists_cut (Nat.min_le_right range.stop (byteLength text.toList))
  constructor
  -- From an inverted range: cut the text at both ends; the start's cut is a beginning of the
  -- stop's.
  · intro hinverted
    rw [position_min text range.start] at hinverted
    obtain ⟨before, after, inside, hstart⟩ :=
      exists_cut (Nat.min_le_right range.start (byteLength text.toList))
    obtain ⟨more, rfl⟩ := hstart.prefix_of_le hstop (by omega)
    obtain ⟨hmore, hinside, rfl, hless⟩ :=
      (position_inverted_iff hstart hstop (by omega)).mp hinverted
    -- A start past the end of the text would be a boundary, so the start is not clamped.
    have hwithin : min range.start (byteLength text.toList) = range.start := by
      refine Nat.min_eq_left (Nat.le_of_not_lt fun hpast => hinside ?_)
      rw [Nat.min_eq_right hpast.le] at hstart
      exact hstart.isBoundary_iff.mp ⟨text.toList, [], by simp, rfl⟩
    rw [hwithin] at hstart
    have hoffset := hstart.offset_eq
    have hstop_eq : min range.stop (byteLength text.toList) = byteLength (before ++ more) :=
      hstop.offset_eq
    have hbytes : byteLength (fullLines before) + byteLength (lastLine before)
        = byteLength before := by
      rw [← byteLength_append, fullLines_append_lastLine]
    have hline : fullLines before ++ (lastLine before ++ more) = before ++ more := by
      rw [← List.append_assoc, fullLines_append_lastLine]
    refine ⟨fun hboundary => hinside (hstart.isBoundary_iff.mp hboundary), fullLines before,
      lastLine before ++ more, after', ?_, fullLines_cases before, ?_, ?_, ?_, by omega⟩
    · rw [hline, hstop.text_eq]
    · simpa [hmore] using newline_not_mem_lastLine before
    · rw [hline, hstop_eq]
    · rw [hline]
      refine Nat.lt_of_le_of_ne (by omega) fun hsame => hinside (hstart.isBoundary_iff.mp ?_)
      exact ⟨before ++ more, after', hstop.text_eq, hsame⟩
  -- From the description: the cut of the start lies between that of `head` and that of the line's
  -- end.
  · rintro ⟨hboundary, head, line, rest, htext, hhead, hline, hstop_eq, hwithin, hless⟩
    have hstopCut : Cut text.toList (byteLength (head ++ line)) (head ++ line) rest 0 :=
      htext ▸ cut_at_boundary _ rest
    have hheadCut : Cut text.toList (byteLength head) head (line ++ rest) 0 := by
      rw [htext, List.append_assoc]
      exact cut_at_boundary head _
    obtain ⟨before, after, inside, hstart⟩ := exists_cut (hwithin.le.trans hstopCut.offset_le)
    obtain ⟨front, rfl⟩ := hheadCut.prefix_of_le hstart (by omega)
    obtain ⟨more, hmore⟩ := hstart.prefix_of_le hstopCut hwithin.le
    obtain rfl : front ++ more = line := by simpa using hmore
    rw [List.mem_append, not_or] at hline
    have hlast : lastLine (head ++ front) = front := by
      obtain rfl | ⟨lines, rfl⟩ := hhead <;> rw [lastLine_append hline.1] <;> simp [lastLine]
    rw [← hmore] at hstopCut
    rw [hstop_eq, ← hmore]
    refine (position_inverted_iff hstart hstopCut (by rw [hmore]; exact hwithin.le)).mpr
      ⟨hline.2, fun hzero => hboundary (hstart.isBoundary_iff.mpr hzero), rfl, ?_⟩
    have hoffset := hstart.offset_eq
    rw [byteLength_append] at hoffset
    rw [hlast]
    omega

/-- A range that starts one byte into the second of two wide characters and ends after it: the
start counts four bytes, the end two code units. -/
theorem insideCharacter_inverted : byteLength "日日".toList < UInt32.size ∧
    ((ofText "日日").lineRange ⟨4, 6, by decide⟩).start = ⟨0, 4⟩ ∧
    ((ofText "日日").lineRange ⟨4, 6, by decide⟩).stop = ⟨0, 2⟩ ∧
    ((ofText "日日").lineRange ⟨4, 6, by decide⟩).stop.Before
      ((ofText "日日").lineRange ⟨4, 6, by decide⟩).start := by
  have hshort : byteLength "日日".toList < UInt32.size := by decide
  have hinside : ∀ c ∈ ['日'].head?, 1 < c.utf8Size := by
    rintro c ⟨⟩
    decide
  have hstart : Cut "日日".toList 4 ['日'] ['日'] 1 := ⟨rfl, rfl, hinside, nofun⟩
  refine ⟨hshort, by decide, by decide,
    (lineRange_inverted_iff "日日" hshort ⟨4, 6, by decide⟩).1.mpr
      ⟨fun hboundary => ?_, [], ['日', '日'], [], by decide, .inl rfl, by decide, by decide,
        by decide, by decide⟩⟩
  cases hstart.isBoundary_iff.mp hboundary

/-- So a line range may end before it starts, also in a text that is short enough. -/
theorem not_forall_lineRange_ordered : ¬ ∀ (text : String) (range : TextRange),
    byteLength text.toList < UInt32.size →
    ¬ ((ofText text).lineRange range).stop.Before ((ofText text).lineRange range).start :=
  fun hordered => hordered "日日" ⟨4, 6, by decide⟩ (by decide) (by decide)

end LineIndex

end SymbolGraph
