import LogSweep.Proofs.CallSpelling
import LogSweep.Proofs.ParenthesisPairing

/-!
# Scanners stop between characters

A scanner may skip a byte inside a longer character, yet if it moves at all, it
stops beside an ASCII byte or at the end of the text.  So in a text every place
that a scan from a boundary, the table or the search for a bracket returns is
one where the text may be cut.
-/

namespace LogSweep

open Byte Bytes

/-- This scan from `start` gives a place that is not before it, and the text may
be cut there. -/
def StopsAtBoundary (src : Bytes) (start : Nat) (scan : Except Fault Nat) : Prop :=
  ∃ stop, scan = .ok stop ∧ start ≤ stop ∧ IsBoundary src stop

section

variable {src : Bytes} {inClass : UInt8 → Bool} {start : Nat} (htext : IsText src)

include htext

theorem runEnd_stopsAtBoundary_of_others (hothers : ∀ b, inClass b = false → b < 0x80)
    (hstart : start ≤ src.length) : StopsAtBoundary src start (src.runEnd inClass start) := by
  have hcut := AsciiCut.of_drop hstart (asciiCut_runLength hothers (src.drop start))
  exact ⟨_, runEnd_of_le hstart, Nat.le_add_right _ _, hcut.isBoundary htext⟩

theorem runEnd_stopsAtBoundary (hascii : ∀ b, inClass b = true → b < 0x80)
    (hstart : IsBoundary src start) : StopsAtBoundary src start (src.runEnd inClass start) :=
  ⟨_, runEnd_of_le hstart.within, Nat.le_add_right _ _, hstart.runLength htext hascii⟩

end

/-- What is read of this text stops at its boundaries: a literal ends at one, and
so do the word, the white space and the blanks behind one; both places of each
pair in the table are boundaries, and so is that of an ASCII bracket which a
search finds. -/
structure ScansToBoundaries (src : Bytes) : Prop where
  literal :
    ∀ start prev literal, Literal.openedAt? src start prev = some literal →
      IsBoundary src (start + literal.length)
  word : ∀ start, IsBoundary src start → StopsAtBoundary src start (src.wordEnd start)
  whitespace : ∀ start, IsBoundary src start → StopsAtBoundary src start (src.whitespaceEnd start)
  blanks : ∀ start, IsBoundary src start → StopsAtBoundary src start (src.blankEnd start)
  table :
    ∀ opening partner, (ParenTable.ofText src).get? opening = some partner →
      IsBoundary src opening ∧ ∀ closing, partner = some closing → IsBoundary src closing
  search :
    ∀ start opening closing place, closing < 0x80 →
      closingFrom src start opening closing = .found place → IsBoundary src place

theorem closingFrom_isBoundary {src : Bytes} {start place : Nat} {opening closing : UInt8}
    (htext : IsText src) (hclosing : closing < 0x80)
    (hfound : closingFrom src start opening closing = .found place) : IsBoundary src place :=
  isBoundary_of_getElem? htext (closingFrom_found hfound).2 hclosing

theorem ParenTable.isBoundary_of_get? {src : Bytes} {opening : Nat} {partner : Option Nat}
    (htext : IsText src) (hget : (ParenTable.ofText src).get? opening = some partner) :
    IsBoundary src opening ∧ ∀ closing, partner = some closing → IsBoundary src closing := by
  rw [ParenTable.get?_ofText_eq_some_iff] at hget
  rcases Pairing.search_of_mem_pairs hget with ⟨hopen, hsearch⟩
  refine ⟨isBoundary_of_getElem? htext hopen (by decide), ?_⟩
  rintro closing rfl
  exact closingFrom_isBoundary htext (by decide) hsearch

/-- In any bytes a literal reaches beyond the place where it starts, and no
further than they do.  In a text all scanners stop between two characters. -/
theorem scanners_stop_at_boundaries (src : Bytes) :
    (∀ start prev literal, Literal.openedAt? src start prev = some literal →
      start < start + literal.length ∧ start + literal.length ≤ src.length) ∧
    (IsText src → ScansToBoundaries src) := by
  constructor
  · intro start prev literal hopened
    exact ⟨Nat.lt_add_of_pos_right (Nat.succ_pos _), (Literal.openedAt?_asciiCut hopened).le_length⟩
  · intro htext
    constructor
    · intro start prev literal hopened
      exact (Literal.openedAt?_asciiCut hopened).isBoundary htext
    · intro start hstart
      exact runEnd_stopsAtBoundary_of_others htext isWord_false_ascii hstart.within
    · intro start hstart
      exact runEnd_stopsAtBoundary htext (fun _ => ascii_of_isWhitespace) hstart
    · intro start hstart
      exact runEnd_stopsAtBoundary htext (fun _ => ascii_of_isBlank) hstart
    · intro opening partner hget
      exact ParenTable.isBoundary_of_get? htext hget
    · intro start opening closing place hclosing hfound
      exact closingFrom_isBoundary htext hclosing hfound

/-- A backslash skips the first byte of a character.  The place behind that byte is
no boundary, but the string ends at one, and the search goes on to one. -/
theorem scanners_stop_at_boundaries_escaped_character :
    ∃ src, src = ofString "ñ ('\\é' /* é */)" ∧ IsText src ∧
      StopsAtBoundary src 0 (src.wordEnd 0) ∧ src.wordEnd 0 = .ok 2 ∧
      Literal.openedAt? src 4 (some openParen) = some ⟨.string, 4⟩ ∧
      9 ≤ src.length ∧ IsBoundary src 9 ∧ ¬ IsBoundary src 7 ∧
      closingFrom src 3 openParen closeParen = .found 18 ∧ IsBoundary src 18 := by
  have htext : IsText (ofString "ñ ('\\é' /* é */)") := ⟨_, rfl⟩
  have hstart : IsBoundary (ofString "ñ ('\\é' /* é */)") 0 :=
    (isBoundary_iff_checkCut htext).mpr (by decide +kernel)
  have hinside : ¬ IsBoundary (ofString "ñ ('\\é' /* é */)") 7 := by
    rw [isBoundary_iff_checkCut htext]
    decide +kernel
  have hstring : Literal.openedAt? (ofString "ñ ('\\é' /* é */)") 4 (some openParen) =
      some ⟨.string, 4⟩ := by
    decide +kernel
  have hfound : closingFrom (ofString "ñ ('\\é' /* é */)") 3 openParen closeParen = .found 18 := by
    decide +kernel
  rcases scanners_stop_at_boundaries (ofString "ñ ('\\é' /* é */)") with ⟨hwithin, hscans⟩
  exact ⟨_, rfl, htext, (hscans htext).word 0 hstart, by decide +kernel, hstring,
    (hwithin 4 _ _ hstring).2, (hscans htext).literal 4 _ _ hstring, hinside, hfound,
    (hscans htext).search 3 _ _ 18 (by decide) hfound⟩

end LogSweep
