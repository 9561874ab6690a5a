import LogSweep.Proofs.CarriageReturn
import LogSweep.Proofs.DeletedCall
import LogSweep.Proofs.SqueezedLiterals

/-!
# Literals in a text cleaned up

All strings, templates and regexes that a sweep meets are still there after it,
and after the blank lines are squeezed: strings and regexes byte for byte, and
templates as if they had been squeezed alone.
-/

namespace LogSweep

open Byte Bytes SweepState

/-- A string, template or regex, and the offset at which it starts. -/
structure PlacedLiteral where
  offset : Nat
  literal : Literal
  deriving DecidableEq

/-- What squeezing blank lines leaves of some bytes, if they are a text. -/
def Bytes.squeezed (bytes : Bytes) : Bytes :=
  match decode? bytes with
  | some text => ofString (squeezeBlankLines text)
  | none => bytes

namespace PlacedLiteral

def bytes (src : Bytes) (placed : PlacedLiteral) : Bytes :=
  (src.drop placed.offset).take placed.literal.length

/-- The sweep of `src` meets the literal, outside all deleted statements. -/
def IsMet (src : Bytes) (placed : PlacedLiteral) : Prop :=
  ∃ state b tail, Reaches src state (b :: tail) ∧ state.offset = placed.offset ∧
    Literal.opened? state.last b tail = some placed.literal ∧
    placed.literal.kind.isValue = true

/-- What is left of the literal: all of it, but of a template the repeated blank
lines go. -/
def left (src : Bytes) (placed : PlacedLiteral) : Bytes :=
  if placed.literal.kind = .template then (placed.bytes src).squeezed
  else placed.bytes src

end PlacedLiteral

/-- These are the literals that the sweep of `src` meets, one behind the other. -/
structure ListsLiterals (src : Bytes) (literals : List PlacedLiteral) : Prop where
  mem_iff : ∀ placed, placed ∈ literals ↔ placed.IsMet src
  inOrder :
    literals.Pairwise fun earlier later =>
      earlier.offset + earlier.literal.length ≤ later.offset

/-- The pieces occur in a text, each behind the one before it. -/
def OccurInOrder : List Bytes → Bytes → Prop
  | [], _ => True
  | piece :: pieces, text =>
    ∃ before after, text = before ++ (piece ++ after) ∧ OccurInOrder pieces after

/-! ## Encoded characters -/

theorem eq_nil_of_flatMap_eq_nil {chars : List Char}
    (hnone : chars.flatMap String.utf8EncodeChar = []) : chars = [] := by
  cases chars with
  | nil => rfl
  | cons c chars => simp [String.utf8EncodeChar_ne_nil] at hnone

theorem exists_cons_of_flatMap {chars : List Char} {b : UInt8} {rest : Bytes}
    (hb : b < 0x80) (hchars : chars.flatMap String.utf8EncodeChar = b :: rest) :
    ∃ others, chars = Char.ofUInt8 b :: others ∧
      others.flatMap String.utf8EncodeChar = rest := by
  cases chars with
  | nil => simp at hchars
  | cons c others =>
      obtain ⟨first, more, hencoded⟩ :=
        List.exists_cons_of_ne_nil (@String.utf8EncodeChar_ne_nil c)
      rw [List.flatMap_cons, hencoded, List.cons_append, List.cons.injEq] at hchars
      obtain ⟨rfl, hrest⟩ := hchars
      have hc : c = Char.ofUInt8 first :=
        (mem_utf8EncodeChar_iff hb).mp (hencoded ▸ List.mem_cons_self)
      rw [hc, utf8EncodeChar_ofUInt8 hb, List.cons.injEq] at hencoded
      rw [← hencoded.2, List.nil_append] at hrest
      exact ⟨others, by rw [hc], hrest⟩

theorem exists_utf8EncodeChar_concat (c : Char) :
    ∃ more last, String.utf8EncodeChar c = more ++ [last] :=
  ⟨_, _, (List.dropLast_append_getLast (@String.utf8EncodeChar_ne_nil c)).symm⟩

theorem exists_concat_of_flatMap {chars : List Char} {b : UInt8} {front : Bytes}
    (hb : b < 0x80) (hchars : chars.flatMap String.utf8EncodeChar = front ++ [b]) :
    ∃ others, chars = others ++ [Char.ofUInt8 b] := by
  rcases List.eq_nil_or_concat chars with rfl | ⟨others, c, rfl⟩
  · simp at hchars
  · obtain ⟨more, last, hencoded⟩ := exists_utf8EncodeChar_concat c
    rw [List.concat_eq_append, List.flatMap_append, List.flatMap_singleton, hencoded,
      ← List.append_assoc] at hchars
    obtain ⟨-, hlast⟩ := List.append_inj' hchars rfl
    obtain rfl : last = b := by simpa using hlast
    have hc : c = Char.ofUInt8 last :=
      (mem_utf8EncodeChar_iff hb).mp (by simp [hencoded])
    exact ⟨others, by rw [List.concat_eq_append, hc]⟩

theorem EscapesNewlines.chars {chars : List Char}
    (hescaped : EscapesNewlines (chars.flatMap String.utf8EncodeChar)) :
    EscapesNewlineChars chars := by
  induction chars with
  | nil => exact List.isChain_nil
  | cons c chars ih =>
      rw [List.flatMap_cons, EscapesNewlines, List.isChain_append] at hescaped
      obtain ⟨-, hchars, hbetween⟩ := hescaped
      cases chars with
      | nil => exact List.isChain_singleton c
      | cons d chars =>
          refine List.isChain_cons_cons.mpr ⟨?_, ih hchars⟩
          rintro rfl
          obtain ⟨more, last, hencoded⟩ := exists_utf8EncodeChar_concat c
          have hlast : last = backslash :=
            hbetween last (by simp [hencoded]) newline rfl rfl
          have hmem : backslash ∈ String.utf8EncodeChar c := by simp [hencoded, hlast]
          exact (mem_utf8EncodeChar_iff (by decide)).mp hmem

theorem squeezed_flatMap (chars : List Char) :
    squeezed (chars.flatMap String.utf8EncodeChar) =
      (squeezeFrom false chars).flatMap String.utf8EncodeChar := by
  have htext : chars.flatMap String.utf8EncodeChar = ofString (.ofList chars) := by
    rw [ofString_eq_flatMap, String.toList_ofList]
  rw [htext, squeezed, decode?_ofString]
  simp only
  rw [ofString_eq_flatMap, toList_squeezeBlankLines, String.toList_ofList]

/-! ## The literals among the segments -/

/-- The literal that a segment holds, if it holds one. -/
def Segment.literal (segment : Segment) : Literal :=
  ⟨.ofFirst segment.first, segment.others.length⟩

/-- The literals among segments of which the first starts at `start`. -/
def placedLiterals (start : Nat) : List Segment → List PlacedLiteral
  | [] => []
  | segment :: rest =>
    if segment.kind = .literal then
      ⟨start, segment.literal⟩ :: placedLiterals (start + segment.bytes.length) rest
    else placedLiterals (start + segment.bytes.length) rest

theorem Segment.length_literal (segment : Segment) :
    segment.literal.length = segment.bytes.length :=
  rfl

theorem mem_placedLiterals_iff {start : Nat} {segments : List Segment}
    {placed : PlacedLiteral} :
    placed ∈ placedLiterals start segments ↔
      ∃ before segment after, segments = before ++ segment :: after ∧
        segment.kind = .literal ∧
        placed = ⟨start + (segmentsText before).length, segment.literal⟩ := by
  induction segments generalizing start with
  | nil => simp [placedLiterals]
  | cons first segments ih =>
      have hlater : placed ∈ placedLiterals (start + first.bytes.length) segments ↔
          ∃ before segment after, first :: segments = first :: before ++ segment :: after ∧
            segment.kind = .literal ∧
            placed = ⟨start + (segmentsText (first :: before)).length, segment.literal⟩ := by
        rw [ih]
        simp [Nat.add_assoc]
      constructor
      · intro hmem
        rw [placedLiterals] at hmem
        split_ifs at hmem with hkind
        · rcases List.mem_cons.mp hmem with rfl | hmem
          · exact ⟨[], first, segments, rfl, hkind, rfl⟩
          · obtain ⟨before, segment, after, hsplit, hsegment⟩ := hlater.mp hmem
            exact ⟨first :: before, segment, after, hsplit, hsegment⟩
        · obtain ⟨before, segment, after, hsplit, hsegment⟩ := hlater.mp hmem
          exact ⟨first :: before, segment, after, hsplit, hsegment⟩
      · rintro ⟨before, segment, after, hsplit, hkind, hplaced⟩
        rw [placedLiterals]
        cases before with
        | nil =>
            obtain ⟨rfl, rfl⟩ := List.cons.inj hsplit
            rw [if_pos hkind, hplaced]
            exact List.mem_cons_self
        | cons head before =>
            obtain ⟨rfl, hrest⟩ := List.cons.inj hsplit
            have hmem := hlater.mpr ⟨before, segment, after, hsplit, hkind, hplaced⟩
            split_ifs
            · exact List.mem_cons_of_mem _ hmem
            · exact hmem

theorem placedLiterals_inOrder (start : Nat) (segments : List Segment) :
    (placedLiterals start segments).Pairwise fun earlier later =>
      earlier.offset + earlier.literal.length ≤ later.offset := by
  induction segments generalizing start with
  | nil => exact List.Pairwise.nil
  | cons segment segments ih =>
      rw [placedLiterals]
      split_ifs
      · refine List.pairwise_cons.mpr ⟨?_, ih _⟩
        intro later hlater
        obtain ⟨before, other, after, -, -, rfl⟩ := mem_placedLiterals_iff.mp hlater
        rw [segment.length_literal]
        exact Nat.le_add_right _ _
      · exact ih _

namespace SweepState

section

variable {text : String} {final : SweepState} {before after : List Segment}
  {segment : Segment}

theorem literal_eq {prev : Option UInt8} {b : UInt8} {tail : Bytes} {literal : Literal}
    (hopened : Literal.opened? prev b tail = some literal)
    (hvalue : literal.kind.isValue = true) (kind : Segment.Kind) :
    (Segment.mk kind b (tail.take literal.more)).literal = literal := by
  have hmore : (tail.take literal.more).length = literal.more :=
    List.length_take_of_le (Literal.opened?_asciiCut hopened).le_length
  rw [Segment.literal, hmore, ← Literal.kind_eq_ofFirst hopened hvalue]

/-- The literal of a segment is the one that was met where it starts. -/
theorem Reaches.exists_opened {src : Bytes} (hreach : Reaches src final [])
    (hsplit : final.segments.toList = before ++ segment :: after)
    (hkind : segment.kind = .literal) :
    ∃ state tail, Reaches src state (segment.first :: tail) ∧
      state.segments.toList = before ∧
      Literal.opened? state.last segment.first tail = some segment.literal ∧
      segment.literal.kind.isValue = true ∧
      segment.others = tail.take segment.literal.more ∧
      tail = segment.others ++ segmentsText after := by
  obtain ⟨state, b, tail, more, hmet, hbefore, hsegment, hnext, -⟩ := hreach.cut_at hsplit
  have hrest : segment.bytes ++ segmentsText after = b :: tail := by
    have hwhole := hreach.src_eq.symm.trans hmet.src_eq
    rw [hsplit, hbefore, segmentsText_append, segmentsText_cons, List.append_nil] at hwhole
    exact List.append_cancel_left hwhole
  rw [hkind] at hsegment hnext
  cases hnext with
  | @literal literal hopened hvalue =>
      subst hsegment
      have hliteral := literal_eq hopened hvalue .literal
      refine ⟨state, tail, hmet, hbefore, ?_, ?_, ?_, ?_⟩
      · rw [hliteral]
        exact hopened
      · rw [hliteral]
        exact hvalue
      · rw [hliteral]
      · exact (List.cons.inj hrest).2.symm

/-- The literals among the segments of a sweep are those that it meets. -/
theorem Reaches.listsLiterals (hreach : Reaches (ofString text) final [])
    (hsweep : sweep (ofString text) = .ok final) :
    ListsLiterals (ofString text) (placedLiterals 0 final.segments.toList) where
  mem_iff placed := by
    rw [mem_placedLiterals_iff]
    constructor
    · rintro ⟨before, segment, after, hsplit, hkind, rfl⟩
      obtain ⟨state, tail, hmet, hbefore, hopened, hvalue, -⟩ :=
        hreach.exists_opened hsplit hkind
      refine ⟨state, segment.first, tail, hmet, ?_, hopened, hvalue⟩
      rw [hmet.offset_eq, hbefore, Nat.zero_add]
    · rintro ⟨state, b, tail, hmet, hoffset, hopened, hvalue⟩
      obtain ⟨later, hlater⟩ := hmet.exists_later hsweep (.literal hopened hvalue)
      refine ⟨_, _, later, hlater, rfl, ?_⟩
      rw [literal_eq hopened hvalue, Nat.zero_add, ← hmet.offset_eq, hoffset]
  inOrder := placedLiterals_inOrder 0 _

/-- The bytes of a segment are those of the text from where it starts. -/
theorem Reaches.bytes_eq {src : Bytes} (hreach : Reaches src final [])
    (hsplit : final.segments.toList = before ++ segment :: after) :
    PlacedLiteral.bytes src ⟨(segmentsText before).length, segment.literal⟩ =
      segment.bytes := by
  have hwhole := hreach.src_eq
  rw [hsplit, segmentsText_append, segmentsText_cons, List.append_nil] at hwhole
  rw [PlacedLiteral.bytes, hwhole, List.drop_left, segment.length_literal, List.take_left]

/-- Each segment of a text is a text. -/
theorem Reaches.segment_isText (hreach : Reaches (ofString text) final [])
    (hsplit : final.segments.toList = before ++ segment :: after) :
    IsText segment.bytes := by
  obtain ⟨state, b, tail, more, hmet, -, hsegment, -, hcut⟩ := hreach.cut_at hsplit
  have hbytes : segment.bytes = b :: tail.take more := by
    rw [hsegment]
    rfl
  have hrest := hmet.readsText.rest
  rw [show b :: tail = segment.bytes ++ tail.drop more by
    rw [hbytes, List.cons_append, List.take_append_drop]] at hrest
  exact (hrest.cut (checkCut_eq_ok_iff.mp hcut).2).1

/-- A string or regex is left as it is. -/
theorem Reaches.squeezes_escaped {src : Bytes} (hreach : Reaches src final [])
    (hsplit : final.segments.toList = before ++ segment :: after)
    (hkind : segment.kind = .literal) (hfirst : segment.first ≠ backtick)
    {chars : List Char}
    (hchars : chars.flatMap String.utf8EncodeChar = segment.bytes) :
    LeavesAlways chars chars := by
  obtain ⟨state, tail, -, -, hopened, hvalue, hothers, -⟩ :=
    hreach.exists_opened hsplit hkind
  have hescaped := Literal.escapesNewlines hopened hvalue hfirst
  rw [← hothers, show segment.first :: segment.others = segment.bytes from rfl,
    ← hchars] at hescaped
  have hsolid : segment.first < 0x80 ∧ isUnicodeSpace (Char.ofUInt8 segment.first) = false := by
    rcases Literal.opened?_cases hopened with ⟨hb, -⟩ | ⟨hb | hb, -⟩ | ⟨hb, -⟩ <;>
      rw [hb] <;> decide
  obtain ⟨others, rfl, -⟩ := exists_cons_of_flatMap hsolid.1 hchars
  exact leavesAlways_of_escaped hsolid.2 hescaped.chars

/-- A template is squeezed as if it stood alone.  If it is not closed, nothing
stands behind it. -/
theorem Reaches.squeezes_template {src : Bytes} (hreach : Reaches src final [])
    (hsplit : final.segments.toList = before ++ segment :: after)
    (hkind : segment.kind = .literal) (hfirst : segment.first = backtick)
    {chars : List Char}
    (hchars : chars.flatMap String.utf8EncodeChar = segment.bytes)
    (solid : Bool) (front : List Char) {behind : List Char}
    (hend : after = [] → behind = []) :
    ∃ earlier later, squeezeFrom solid (front ++ (chars ++ behind)) =
      earlier ++ (squeezeFrom false chars ++ squeezeFrom later behind) := by
  obtain ⟨state, tail, -, -, hopened, -, hothers, htail⟩ :=
    hreach.exists_opened hsplit hkind
  rw [hfirst] at hopened
  have hbytes : chars.flatMap String.utf8EncodeChar = backtick :: segment.others := by
    rw [hchars, Segment.bytes, hfirst]
  obtain ⟨inside, rfl, hinside⟩ := exists_cons_of_flatMap (by decide) hbytes
  have hbacktick : isUnicodeSpace (Char.ofUInt8 backtick) = false := by decide
  rcases Literal.template_closesOrEnds hopened with hends | ⟨body, hcloses⟩
  · have hlength := congrArg List.length htail
    rw [hothers, List.length_append, List.length_take, hends, Nat.min_self] at hlength
    have hnone : segmentsText after = [] := List.eq_nil_of_length_eq_zero (by omega)
    rw [hend (segmentsText_eq_nil_iff.mp hnone), List.append_nil]
    obtain ⟨earlier, hearlier⟩ := exists_squeezeFrom_last hbacktick solid front inside
    exact ⟨earlier, false, by rw [hearlier, squeezeFrom_nil, List.append_nil]⟩
  · rw [hothers, hcloses] at hinside
    obtain ⟨others, rfl⟩ := exists_concat_of_flatMap (by decide) hinside
    obtain ⟨earlier, later, hleaves⟩ :=
      leavesAlways_of_closed hbacktick hbacktick solid front
    exact ⟨earlier, later, hleaves behind⟩

/-- What squeezing leaves of a literal does not depend on what stands around it. -/
theorem Reaches.exists_squeezed_literal (hreach : Reaches (ofString text) final [])
    (hsplit : final.segments.toList = before ++ segment :: after)
    (hkind : segment.kind = .literal) {chars : List Char}
    (hchars : chars.flatMap String.utf8EncodeChar = segment.bytes) :
    ∃ left, PlacedLiteral.left (ofString text) ⟨(segmentsText before).length, segment.literal⟩ =
        left.flatMap String.utf8EncodeChar ∧
      ∀ solid front behind, (after = [] → behind = []) → ∃ earlier later,
        squeezeFrom solid (front ++ (chars ++ behind)) =
          earlier ++ (left ++ squeezeFrom later behind) := by
  have hbytes := hreach.bytes_eq hsplit
  by_cases hfirst : segment.first = backtick
  · have htemplate : segment.literal.kind = .template := by
      rw [Segment.literal, hfirst]
      rfl
    refine ⟨squeezeFrom false chars, ?_, fun solid front behind hend =>
      hreach.squeezes_template hsplit hkind hfirst hchars solid front hend⟩
    rw [PlacedLiteral.left, if_pos htemplate, hbytes, ← hchars, squeezed_flatMap]
  · have hplain : segment.literal.kind ≠ .template := by
      rw [Segment.literal, Literal.Kind.ofFirst, if_neg hfirst]
      split_ifs <;> simp
    refine ⟨chars, ?_, fun solid front behind _ => ?_⟩
    · rw [PlacedLiteral.left, if_neg hplain, hbytes, hchars]
    · obtain ⟨earlier, later, hleaves⟩ :=
        hreach.squeezes_escaped hsplit hkind hfirst hchars solid front
      exact ⟨earlier, later, hleaves behind⟩

/-- The literals of the last segments occur in what is left of them, whatever
stood in front. -/
theorem Reaches.exists_occurInOrder (hreach : Reaches (ofString text) final [])
    (hsplit : final.segments.toList = before ++ after) :
    ∃ chars : List Char,
      chars.flatMap String.utf8EncodeChar = segmentsText (surviving false after) ∧
      ∀ solid front, OccurInOrder
        ((placedLiterals (segmentsText before).length after).map
          (PlacedLiteral.left (ofString text)))
        ((squeezeFrom solid (front ++ chars)).flatMap String.utf8EncodeChar) := by
  induction after generalizing before with
  | nil => exact ⟨[], rfl, fun _ _ => trivial⟩
  | cons segment after ih =>
      have hsplit' : final.segments.toList = (before ++ [segment]) ++ after := by
        simpa using hsplit
      obtain ⟨behind, hbehind, hoccur⟩ := ih hsplit'
      have hlength : (segmentsText (before ++ [segment])).length =
          (segmentsText before).length + segment.bytes.length := by
        simp
      rw [hlength] at hoccur
      obtain ⟨piece, hpiece⟩ := isText_iff_exists_chars.mp (hreach.segment_isText hsplit)
      rw [placedLiterals, surviving]
      by_cases hkind : segment.kind = .literal
      · have hstays : segment.isDropped false after ≠ true := by
          simp [Segment.isDropped, hkind]
        refine ⟨piece ++ behind, ?_, fun solid front => ?_⟩
        · rw [if_neg hstays, segmentsText_cons, List.flatMap_append, hpiece, hbehind]
        · obtain ⟨left, hleft, hsqueezed⟩ :=
            hreach.exists_squeezed_literal hsplit hkind hpiece
          have hend : after = [] → behind = [] := by
            rintro rfl
            exact eq_nil_of_flatMap_eq_nil hbehind
          obtain ⟨earlier, later, hwhole⟩ := hsqueezed solid front behind hend
          rw [if_pos hkind, List.map_cons, hleft, hwhole, List.flatMap_append,
            List.flatMap_append]
          exact ⟨_, _, rfl, hoccur later []⟩
      · rw [if_neg hkind]
        split_ifs with hdropped
        · exact ⟨behind, hbehind, hoccur⟩
        · refine ⟨piece ++ behind, ?_, fun solid front => ?_⟩
          · rw [segmentsText_cons, List.flatMap_append, hpiece, hbehind]
          · rw [← List.append_assoc]
            exact hoccur solid (front ++ piece)

end

end SweepState

/-- All of a literal is left, unless it is a template with two blank lines in a
row. -/
theorem PlacedLiteral.left_eq_bytes (src : Bytes) (placed : PlacedLiteral) :
    placed.left src = placed.bytes src ∨
      placed.literal.kind = .template ∧
        ∃ text, ofString text = placed.bytes src ∧ RepeatsBlankLine text := by
  by_cases hkind : placed.literal.kind = .template
  · rw [left, if_pos hkind, squeezed]
    cases hdecode : decode? (placed.bytes src) with
    | none => exact Or.inl rfl
    | some text =>
        have htext := decode?_eq_some_iff.mp hdecode
        by_cases hrepeats : RepeatsBlankLine text
        · exact Or.inr ⟨hkind, text, htext, hrepeats⟩
        · simp only [squeezeBlankLines_eq_self hrepeats]
          exact Or.inl htext
  · exact Or.inl (by rw [left, if_neg hkind])

/-- All strings, templates and regexes that the sweep of a text meets are still
there, in order, once it is cleaned up.  They are left as they are, but for
templates in which two lines in a row are blank; of these the repeated blank
lines go. -/
theorem cleanUp_keeps_literals (text : String) :
    ∃ report literals, cleanUp text = .ok report ∧
      ListsLiterals (ofString text) literals ∧
      OccurInOrder (literals.map (PlacedLiteral.left (ofString text)))
        (ofString report.text) ∧
      ∀ placed ∈ literals,
        placed.left (ofString text) = placed.bytes (ofString text) ∨
          placed.literal.kind = .template ∧
            ∃ template, ofString template = placed.bytes (ofString text) ∧
              RepeatsBlankLine template := by
  obtain ⟨final, swept, hsweep, hreach, hswept, htext, -⟩ := exists_sweepText text
  obtain ⟨swept', hswept', hcleaned, -⟩ := exists_cleanUp text
  obtain rfl := Except.ok.inj (hswept.symm.trans hswept')
  refine ⟨_, placedLiterals 0 final.segments.toList, hcleaned,
    hreach.listsLiterals hsweep, ?_, fun placed _ => placed.left_eq_bytes _⟩
  obtain ⟨chars, hchars, hoccur⟩ := hreach.exists_occurInOrder (List.nil_append _).symm
  have hsame : swept.text.toList = chars := by
    have hencoded : ofString swept.text = ofString (.ofList chars) := by
      rw [htext, hreach.writesSurviving.output, ← hchars, ofString_eq_flatMap,
        String.toList_ofList]
    rw [ofString_injective hencoded, String.toList_ofList]
  have hsqueezed : ofString (squeezeBlankLines swept.text) =
      (squeezeFrom false ([] ++ chars)).flatMap String.utf8EncodeChar := by
    rw [ofString_eq_flatMap, toList_squeezeBlankLines, hsame, List.nil_append]
  simp only [hsqueezed]
  exact hoccur false []

/-- A template with three line feeds in a row loses one of them. -/
theorem cleanUp_shortens_template :
    ∃ placed : PlacedLiteral,
      placed.IsMet (ofString "x = `a\n\n\nb`;\n") ∧
      placed.bytes (ofString "x = `a\n\n\nb`;\n") = ofString "`a\n\n\nb`" ∧
      cleanUp "x = `a\n\n\nb`;\n" = .ok ⟨"x = `a\n\nb`;\n", []⟩ ∧
      ¬ ofString "`a\n\n\nb`" <:+: ofString "x = `a\n\nb`;\n" := by
  obtain ⟨final, -, hsweep, hreach, -⟩ := exists_sweepText "x = `a\n\n\nb`;\n"
  have hliterals : (sweep (ofString "x = `a\n\n\nb`;\n")).map
      (fun final => placedLiterals 0 final.segments.toList) =
      .ok [⟨4, ⟨.template, 6⟩⟩] := by
    decide +kernel
  rw [hsweep] at hliterals
  simp only [Except.map, Except.ok.injEq] at hliterals
  refine ⟨⟨4, ⟨.template, 6⟩⟩, ?_, by decide +kernel, by decide +kernel,
    by decide +kernel⟩
  rw [← (hreach.listsLiterals hsweep).mem_iff, hliterals]
  exact List.mem_singleton_self _

end LogSweep
