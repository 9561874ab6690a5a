import Mathlib.Data.List.DropRight
import LogSweep.Proofs.BlankLineSqueeze
import LogSweep.Proofs.CarriageReturn

/-!
# Lines cut at both line ends

A carriage return ends a line as a line feed does.  The lines between the two
are those that lie between line feeds, cut once more, so squeezing blank lines
leaves every one of them that is not blank: what is cut from a blank line is
blank.
-/

namespace LogSweep

open Byte Bytes

/-- Line feed and carriage return. -/
def Byte.isLineBreak (b : UInt8) : Bool :=
  b == newline || b == carriageReturn

namespace Bytes

/-- The lines of a text, cut at every line feed and carriage return. -/
def cutLines (bytes : Bytes) : List Bytes :=
  bytes.splitOnP isLineBreak

/-- The line without the ASCII white space at its end. -/
def trimEnd (line : Bytes) : Bytes :=
  line.rdropWhile isWhitespace

/-- Whether the line is a text without a character that is no white space. -/
def isBlankText (line : Bytes) : Bool :=
  (decode? line).any fun text => isBlankLine text.toList

end Bytes

/-! ## Cutting a list -/

/-- Cutting at two kinds of separators is cutting at one kind and then at the
other. -/
theorem splitOnP_or {α : Type} (isFirst isSecond : α → Bool) (items : List α) :
    items.splitOnP (fun item => isFirst item || isSecond item) =
      (items.splitOnP isFirst).flatMap (List.splitOnP isSecond) := by
  induction items with
  | nil => rfl
  | cons item items ih =>
      obtain ⟨piece, pieces, hpieces⟩ :=
        List.exists_cons_of_ne_nil (List.splitOnP_ne_nil isFirst items)
      obtain ⟨part, parts, hparts⟩ :=
        List.exists_cons_of_ne_nil (List.splitOnP_ne_nil isSecond piece)
      rw [List.splitOnP_cons_eq_if_modifyHead, List.splitOnP_cons_eq_if_modifyHead, ih, hpieces]
      cases hfirst : isFirst item with
      | true => simp
      | false =>
          cases hsecond : isSecond item with
          | true => simp [List.splitOnP_cons_eq_if_modifyHead, hsecond]
          | false =>
              simp [List.splitOnP_cons_eq_if_modifyHead, hsecond, hparts]

theorem splitOnP_append_of_forall {α : Type} {isEnd : α → Bool} {piece : List α}
    (hpiece : ∀ item ∈ piece, isEnd item = false) (items : List α) :
    (piece ++ items).splitOnP isEnd =
      (items.splitOnP isEnd).modifyHead (piece ++ ·) := by
  induction piece with
  | nil => exact (congrFun List.modifyHead_id _).symm
  | cons item piece ih =>
      rw [List.cons_append, List.splitOnP_cons_eq_if_modifyHead,
        if_neg (by simp [hpiece item]), ih fun i hi => hpiece i (List.mem_cons_of_mem item hi),
        List.modifyHead_modifyHead]
      rfl

theorem subset_of_mem_splitOnP {α : Type} {isEnd : α → Bool} {piece items : List α}
    (hpiece : piece ∈ items.splitOnP isEnd) : piece ⊆ items := by
  induction items generalizing piece with
  | nil =>
      rw [List.splitOnP_nil, List.mem_singleton] at hpiece
      rw [hpiece]
      exact List.Subset.refl []
  | cons item items ih =>
      obtain ⟨first, others, hsplit⟩ :=
        List.exists_cons_of_ne_nil (List.splitOnP_ne_nil isEnd items)
      rw [hsplit] at ih
      rw [List.splitOnP_cons_eq_if_modifyHead, hsplit] at hpiece
      split_ifs at hpiece
      · rcases List.mem_cons.mp hpiece with rfl | hpiece
        · exact List.nil_subset _
        · exact List.Subset.trans (ih hpiece) (List.subset_cons_self item items)
      · rcases List.mem_cons.mp hpiece with rfl | hpiece
        · exact List.cons_subset_cons item (ih List.mem_cons_self)
        · exact List.Subset.trans (ih (List.mem_cons_of_mem first hpiece))
            (List.subset_cons_self item items)

/-! ## The lines of a text -/

theorem cutLines_ne_nil (bytes : Bytes) : bytes.cutLines ≠ [] :=
  List.splitOnP_ne_nil _ _

theorem cutLines_cons_of_break {b : UInt8} (hb : isLineBreak b = true)
    (bytes : Bytes) : cutLines (b :: bytes) = [] :: bytes.cutLines := by
  rw [cutLines, List.splitOnP_cons_eq_if_modifyHead, if_pos hb]
  rfl

theorem cutLines_cons {b : UInt8} (hb : isLineBreak b = false) {bytes line : Bytes}
    {lines : List Bytes} (hlines : bytes.cutLines = line :: lines) :
    cutLines (b :: bytes) = (b :: line) :: lines := by
  rw [cutLines] at hlines ⊢
  rw [List.splitOnP_cons_eq_if_modifyHead, if_neg (by simp [hb]), hlines]
  rfl

theorem trimEnd_cons_congr {line line' : Bytes} (hsame : line.trimEnd = line'.trimEnd)
    (b : UInt8) : trimEnd (b :: line) = trimEnd (b :: line') := by
  simp only [trimEnd, List.rdropWhile, List.reverse_cons, List.dropWhile_append,
    List.reverse_inj] at hsame ⊢
  rw [hsame]

theorem trimEnd_eq_nil_iff {line : Bytes} :
    line.trimEnd = [] ↔ ∀ b ∈ line, isWhitespace b = true :=
  List.rdropWhile_eq_nil_iff

theorem isLineBreak_eq_true_iff {b : UInt8} :
    isLineBreak b = true ↔ b = newline ∨ b = carriageReturn := by
  simp [isLineBreak]

theorem isLineBreak_eq_false_of_isWord {b : UInt8} (hb : isWord b = true) :
    isLineBreak b = false := by
  obtain ⟨hreturn, hfeed⟩ := ne_lineEnd_of_isWord hb
  simp [isLineBreak, hreturn, hfeed]

theorem atLineEnd_iff_cutLines {bytes : Bytes} :
    atLineEnd bytes = true ↔ ∃ lines, bytes.cutLines = [] :: lines := by
  cases bytes with
  | nil => simp [atLineEnd, cutLines]
  | cons b bytes =>
      obtain ⟨line, lines, hlines⟩ := List.exists_cons_of_ne_nil (cutLines_ne_nil bytes)
      cases hb : isLineBreak b with
      | true =>
          have hends : atLineEnd (b :: bytes) = true := hb
          simp [hends, cutLines_cons_of_break hb]
      | false =>
          have hends : atLineEnd (b :: bytes) = false := hb
          simp [hends, cutLines_cons hb hlines]


/-- Whether the character is a line end. -/
def endsTextLine (c : Char) : Bool := c == '\n' || c == '\r'

theorem encode_of_endsTextLine {c : Char} (hc : endsTextLine c = true) :
    ∃ b, String.utf8EncodeChar c = [b] ∧ isLineBreak b = true := by
  rcases Bool.or_eq_true_iff.mp hc with hc | hc <;> rw [eq_of_beq hc]
  · exact ⟨newline, by decide, by decide⟩
  · exact ⟨carriageReturn, by decide, by decide⟩

theorem isLineBreak_of_mem_encode {c : Char} (hc : endsTextLine c = false) {b : UInt8}
    (hb : b ∈ String.utf8EncodeChar c) : isLineBreak b = false := by
  by_contra hbreak
  rw [Bool.not_eq_false, isLineBreak_eq_true_iff] at hbreak
  rcases hbreak with rfl | rfl
  · rw [mem_utf8EncodeChar_iff (by decide)] at hb
    rw [hb] at hc
    exact absurd hc (by decide)
  · rw [mem_utf8EncodeChar_iff (by decide)] at hb
    rw [hb] at hc
    exact absurd hc (by decide)

/-- The lines of an encoded text are its lines, encoded. -/
theorem cutLines_flatMap (chars : List Char) :
    cutLines (chars.flatMap String.utf8EncodeChar) =
      (chars.splitOnP endsTextLine).map (List.flatMap String.utf8EncodeChar) := by
  induction chars with
  | nil => rfl
  | cons c chars ih =>
      obtain ⟨line, lines, hlines⟩ :=
        List.exists_cons_of_ne_nil (List.splitOnP_ne_nil endsTextLine chars)
      rw [hlines] at ih
      rw [List.flatMap_cons, List.splitOnP_cons_eq_if_modifyHead, hlines]
      cases hc : endsTextLine c with
      | true =>
          obtain ⟨b, hb, hbreak⟩ := encode_of_endsTextLine hc
          rw [hb, List.singleton_append, cutLines_cons_of_break hbreak, ih]
          simp
      | false =>
          rw [cutLines, splitOnP_append_of_forall fun b hb => isLineBreak_of_mem_encode hc hb]
          rw [cutLines] at ih
          rw [ih]
          simp

theorem isBlankText_flatMap (chars : List Char) :
    isBlankText (chars.flatMap String.utf8EncodeChar) = isBlankLine chars := by
  have htext : chars.flatMap String.utf8EncodeChar = ofString (.ofList chars) := by
    rw [ofString_eq_flatMap, String.toList_ofList]
  rw [htext, isBlankText, decode?_ofString, Option.any_some, String.toList_ofList]

/-! ## Blank lines -/

theorem isUnicodeSpace_of_isWhitespace {b : UInt8} (hb : isWhitespace b = true) :
    isUnicodeSpace (Char.ofUInt8 b) = true := by
  rcases isWhitespace_cases hb with rfl | rfl | rfl | rfl | rfl <;> decide

theorem isBlankText_of_isWhitespace {bytes : Bytes}
    (hspaces : ∀ b ∈ bytes, isWhitespace b = true) : bytes.isBlankText = true := by
  obtain ⟨text, rfl⟩ := isText_of_ascii fun b hb => ascii_of_isWhitespace (hspaces b hb)
  rw [isBlankText, decode?_ofString, Option.any_some, isBlankLine, List.all_eq_true]
  intro c hc
  obtain ⟨b, hb⟩ := List.exists_mem_of_ne_nil _ (@String.utf8EncodeChar_ne_nil c)
  have hmem : b ∈ ofString text := by
    rw [ofString_eq_flatMap]
    exact List.mem_flatMap.mpr ⟨c, hc, hb⟩
  have hspace := hspaces b hmem
  rw [(mem_utf8EncodeChar_iff (ascii_of_isWhitespace hspace)).mp hb]
  exact isUnicodeSpace_of_isWhitespace hspace

theorem isBlankText_iff {line : Bytes} :
    line.isBlankText = true ↔
      ∃ chars : List Char, line = chars.flatMap String.utf8EncodeChar ∧
        isBlankLine chars = true := by
  constructor
  · intro hblank
    obtain ⟨text, hdecode, htext⟩ := (Option.any_eq_true _ _).mp hblank
    rw [decode?_eq_some_iff, ofString_eq_flatMap] at hdecode
    exact ⟨text.toList, hdecode.symm, htext⟩
  · rintro ⟨chars, rfl, hchars⟩
    rw [isBlankText_flatMap, hchars]

/-- ASCII white space at its end leaves a line blank, or not blank. -/
theorem isBlankText_append {spaces : Bytes} (hspaces : ∀ b ∈ spaces, isWhitespace b = true)
    (line : Bytes) : isBlankText (line ++ spaces) = line.isBlankText := by
  obtain ⟨more, rfl, hmore⟩ := isBlankText_iff.mp (isBlankText_of_isWhitespace hspaces)
  have htext : ∀ chars : List Char,
      isBlankText (chars.flatMap String.utf8EncodeChar ++
        more.flatMap String.utf8EncodeChar) = isBlankLine chars := by
    intro chars
    rw [← List.flatMap_append, isBlankText_flatMap, isBlankLine, List.all_append]
    exact (congrArg _ hmore).trans (Bool.and_true _)
  rw [Bool.eq_iff_iff]
  constructor
  · intro hblank
    obtain ⟨whole, hwhole, -⟩ := isBlankText_iff.mp hblank
    have hstarts : startsCharacter (more.flatMap String.utf8EncodeChar) = true := by
      cases hencoded : more.flatMap String.utf8EncodeChar with
      | nil => rfl
      | cons b rest =>
          have hb := ascii_of_isWhitespace (hspaces b (by simp [hencoded]))
          simp [startsCharacter, hb]
    obtain ⟨text, rfl⟩ :=
      (IsText.cut (isText_iff_exists_chars.mpr ⟨whole, hwhole.symm⟩) hstarts).1
    rw [ofString_eq_flatMap, htext] at hblank
    rwa [ofString_eq_flatMap, isBlankText_flatMap]
  · intro hblank
    obtain ⟨chars, rfl, hchars⟩ := isBlankText_iff.mp hblank
    rwa [htext]

theorem isBlankText_trimEnd (line : Bytes) :
    line.trimEnd.isBlankText = line.isBlankText := by
  have hspaces : ∀ b ∈ line.rtakeWhile isWhitespace, isWhitespace b = true :=
    fun b hb => List.mem_rtakeWhile_imp hb
  calc line.trimEnd.isBlankText
      = isBlankText (line.trimEnd ++ line.rtakeWhile isWhitespace) :=
        (isBlankText_append hspaces _).symm
    _ = line.isBlankText := by
        rw [trimEnd, List.rdropWhile_append_rtakeWhile]

/-- What is cut from a blank line is blank. -/
theorem filter_splitOnP_of_isBlankLine {line : List Char} (hblank : isBlankLine line = true) :
    (line.splitOnP (· == '\r')).filter (!isBlankLine ·) = [] := by
  rw [List.filter_eq_nil_iff]
  intro part hpart
  rw [isBlankLine, List.all_eq_true] at hblank
  simp only [isBlankLine, Bool.not_eq_true', Bool.not_eq_false, List.all_eq_true]
  exact fun c hc => hblank c (subset_of_mem_splitOnP hpart hc)

theorem filter_flatMap_linesAfter (afterBlank : Bool) (lines : List (List Char)) :
    ((linesAfter afterBlank lines).flatMap (List.splitOnP (· == '\r'))).filter
        (!isBlankLine ·) =
      (lines.flatMap (List.splitOnP (· == '\r'))).filter (!isBlankLine ·) := by
  induction lines generalizing afterBlank with
  | nil => rfl
  | cons line lines ih =>
      rw [linesAfter]
      split_ifs with hdropped
      · have hblank := (Bool.and_eq_true_iff.mp hdropped).1
        rw [ih, List.flatMap_cons, List.filter_append, filter_splitOnP_of_isBlankLine hblank,
          List.nil_append]
      · rw [List.flatMap_cons, List.flatMap_cons, List.filter_append, List.filter_append, ih]

/-- Squeezing leaves every line that is not blank. -/
theorem filter_cutLines_squeezeBlankLines (text : String) :
    (ofString (squeezeBlankLines text)).cutLines.filter (!isBlankText ·) =
      (ofString text).cutLines.filter (!isBlankText ·) := by
  have hlines : ∀ chars : List Char,
      (cutLines (chars.flatMap String.utf8EncodeChar)).filter (!isBlankText ·) =
        (((splitLines chars).flatMap (List.splitOnP (· == '\r'))).filter
          (!isBlankLine ·)).map (List.flatMap String.utf8EncodeChar) := by
    intro chars
    have hcut : chars.splitOnP endsTextLine =
        (splitLines chars).flatMap (List.splitOnP (· == '\r')) := by
      rw [splitLines_eq_splitOn]
      exact splitOnP_or (· == '\n') (· == '\r') chars
    rw [cutLines_flatMap, List.filter_map, hcut]
    congr 2
    funext line
    simp only [Function.comp_apply, isBlankText_flatMap]
  rw [ofString_eq_flatMap, ofString_eq_flatMap, hlines, hlines,
    splitLines_squeezeBlankLines, filter_flatMap_linesAfter]

end LogSweep
