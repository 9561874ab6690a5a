import LogSweep.Proofs.TextLines

/-!
# Lines of a text that some bytes leave

Each byte of a text comes with its offset, some offsets are hit, and something
is left of the text.  Lines that are not hit are still there, white space at
their ends apart, as long as bytes go in two ways only: bytes that are hit, from
one that ends no line to one that ends no line, and white space in front of a
line end.

All of this is said of the end of a text and of what is left of it, so it can be
carried from the end of the text to its start, byte by byte.  The first line is
open to the left: what stands before it in the text may belong to it.
-/

namespace LogSweep

open Byte Bytes

/-- A line, each byte with its offset in the text. -/
abbrev PlacedLine := List (UInt8 × Nat)

/-- The lines of a text whose bytes have their offsets with them. -/
def placedLines (places : List (UInt8 × Nat)) : List PlacedLine :=
  places.splitOnP fun place => isLineBreak place.1

namespace PlacedLine

def bytes (line : PlacedLine) : Bytes := line.map Prod.fst

/-- Whether the line holds no byte at an offset that is `hit`. -/
def isMissed (hit : Nat → Bool) (line : PlacedLine) : Bool :=
  line.all fun place => !hit place.2

/-- Whether the line is missed and not blank. -/
def stays (hit : Nat → Bool) (line : PlacedLine) : Bool :=
  line.isMissed hit && !line.bytes.isBlankText

end PlacedLine

/-- The lines that stay, each without the white space at its end. -/
def stayingLines (hit : Nat → Bool) (lines : List PlacedLine) : List Bytes :=
  (lines.filter fun line => line.stays hit).map fun line => line.bytes.trimEnd

/-! ## One byte more in front -/

theorem placedLines_ne_nil (places : List (UInt8 × Nat)) : placedLines places ≠ [] :=
  List.splitOnP_ne_nil _ _

theorem placedLines_cons_of_break {b : UInt8} (hb : isLineBreak b = true) (x : Nat)
    (places : List (UInt8 × Nat)) :
    placedLines ((b, x) :: places) = [] :: placedLines places := by
  rw [placedLines, List.splitOnP_cons_eq_if_modifyHead, if_pos hb]
  rfl

theorem placedLines_cons {b : UInt8} (hb : isLineBreak b = false) (x : Nat)
    {places : List (UInt8 × Nat)} {line : PlacedLine} {lines : List PlacedLine}
    (hlines : placedLines places = line :: lines) :
    placedLines ((b, x) :: places) = ((b, x) :: line) :: lines := by
  rw [placedLines] at hlines ⊢
  rw [List.splitOnP_cons_eq_if_modifyHead, if_neg (by simp [hb]), hlines]
  rfl

/-! ## Lines that stay -/

section

variable {hit : Nat → Bool} {line : PlacedLine} {lines : List PlacedLine}

theorem stayingLines_cons_of_stays (hstays : line.stays hit = true) :
    stayingLines hit (line :: lines) =
      line.bytes.trimEnd :: stayingLines hit lines := by
  simp [stayingLines, hstays]

theorem stayingLines_cons_of_not_stays (hstays : line.stays hit = false) :
    stayingLines hit (line :: lines) = stayingLines hit lines := by
  simp [stayingLines, hstays]

theorem PlacedLine.stays_eq_false_of_hit (hhit : line.isMissed hit = false) :
    line.stays hit = false := by
  simp [stays, hhit]

theorem PlacedLine.stays_eq_false_of_isWhitespace
    (hspaces : ∀ place ∈ line, isWhitespace place.1 = true) :
    line.stays hit = false := by
  have hblank : line.bytes.isBlankText = true := by
    apply isBlankText_of_isWhitespace
    intro b hb
    obtain ⟨place, hplace, rfl⟩ := List.mem_map.mp hb
    exact hspaces place hplace
  simp [stays, hblank]

end

/-! ## What is left of a text, and its lines -/

/-- What is left of the end of a text, of which some bytes are `hit`: the first
line is hit or left as it is, and all others that stay are left. -/
structure KeepsLines (hit : Nat → Bool) (places : List (UInt8 × Nat))
    (left : Bytes) : Prop where
  exists_lines :
    ∃ line lines first others, placedLines places = line :: lines ∧
      left.cutLines = first :: others ∧
      (line.isMissed hit = true → line.bytes.trimEnd = first.trimEnd) ∧
      (stayingLines hit lines).Sublist (others.map trimEnd)

/-- The same where the first line does not stay, and what is left of the text
may start with the second. -/
structure LosesFirstLine (hit : Nat → Bool) (places : List (UInt8 × Nat))
    (left : Bytes) : Prop where
  exists_lines :
    ∃ line lines, placedLines places = line :: lines ∧
      (line.isMissed hit = true → ∀ place ∈ line, isWhitespace place.1 = true) ∧
      (stayingLines hit lines).Sublist (left.cutLines.map trimEnd)

section

variable {hit : Nat → Bool} {places : List (UInt8 × Nat)} {left : Bytes}
  {b : UInt8} {x : Nat}

theorem PlacedLine.isMissed_cons {line : PlacedLine} :
    PlacedLine.isMissed hit ((b, x) :: line) = (!hit x && line.isMissed hit) :=
  rfl

theorem KeepsLines.nil (hit : Nat → Bool) : KeepsLines hit [] [] :=
  ⟨[], [], [], [], rfl, rfl, fun _ => rfl, List.Sublist.refl _⟩

/-- A line that is left, or does not stay, in front of others. -/
theorem stayingLines_cons_sublist {line : PlacedLine} {lines : List PlacedLine}
    {first : Bytes} {others : List Bytes}
    (hfirst : line.isMissed hit = true → line.bytes.trimEnd = first.trimEnd)
    (hlines : (stayingLines hit lines).Sublist (others.map trimEnd)) :
    (stayingLines hit (line :: lines)).Sublist ((first :: others).map trimEnd) := by
  cases hstays : line.stays hit with
  | true =>
      have hmissed : line.isMissed hit = true := (Bool.and_eq_true_iff.mp hstays).1
      rw [stayingLines_cons_of_stays hstays, hfirst hmissed]
      exact hlines.cons_cons _
  | false =>
      rw [stayingLines_cons_of_not_stays hstays]
      exact hlines.cons _

theorem KeepsLines.sublist (hkeeps : KeepsLines hit places left) :
    (stayingLines hit (placedLines places)).Sublist (left.cutLines.map trimEnd) := by
  obtain ⟨line, lines, first, others, hplaced, hleft, hfirst, hlines⟩ :=
    hkeeps.exists_lines
  rw [hplaced, hleft]
  exact stayingLines_cons_sublist hfirst hlines

/-- A byte that is left. -/
theorem KeepsLines.keep (hkeeps : KeepsLines hit places left) (b : UInt8) (x : Nat) :
    KeepsLines hit ((b, x) :: places) (b :: left) := by
  obtain ⟨line, lines, first, others, hplaced, hleft, hfirst, hlines⟩ :=
    hkeeps.exists_lines
  cases hb : isLineBreak b with
  | true =>
      refine ⟨[], placedLines places, [], left.cutLines,
        placedLines_cons_of_break hb x places, cutLines_cons_of_break hb left,
        fun _ => rfl, hkeeps.sublist⟩
  | false =>
      refine ⟨(b, x) :: line, lines, b :: first, others,
        placedLines_cons hb x hplaced, cutLines_cons hb hleft, ?_, hlines⟩
      intro hmissed
      rw [PlacedLine.isMissed_cons, Bool.and_eq_true] at hmissed
      exact trimEnd_cons_congr (hfirst hmissed.2) b

/-- White space that goes, in front of what starts with a line end. -/
theorem KeepsLines.dropSpace (hkeeps : KeepsLines hit places left)
    (hends : atLineEnd left = true) (hspace : isWhitespace b = true) (x : Nat) :
    KeepsLines hit ((b, x) :: places) left := by
  obtain ⟨line, lines, first, others, hplaced, hleft, hfirst, hlines⟩ :=
    hkeeps.exists_lines
  obtain ⟨others', hleft'⟩ := atLineEnd_iff_cutLines.mp hends
  obtain ⟨rfl, rfl⟩ := List.cons.inj (hleft.symm.trans hleft')
  have hblank : line.isMissed hit = true → ∀ place ∈ line, isWhitespace place.1 = true := by
    intro hmissed place hplace
    exact trimEnd_eq_nil_iff.mp (hfirst hmissed) _ (List.mem_map_of_mem hplace)
  cases hb : isLineBreak b with
  | true =>
      refine ⟨[], placedLines places, [], others,
        placedLines_cons_of_break hb x places, hleft, fun _ => rfl, ?_⟩
      have hstays : line.stays hit = false := by
        cases hmissed : line.isMissed hit with
        | true => exact PlacedLine.stays_eq_false_of_isWhitespace (hblank hmissed)
        | false => exact PlacedLine.stays_eq_false_of_hit hmissed
      rwa [hplaced, stayingLines_cons_of_not_stays hstays]
  | false =>
      refine ⟨(b, x) :: line, lines, [], others, placedLines_cons hb x hplaced, hleft,
        ?_, hlines⟩
      intro hmissed
      rw [PlacedLine.isMissed_cons, Bool.and_eq_true] at hmissed
      apply trimEnd_eq_nil_iff.mpr
      intro c hc
      rcases List.mem_cons.mp hc with rfl | hc
      · exact hspace
      · obtain ⟨place, hplace, rfl⟩ := List.mem_map.mp hc
        exact hblank hmissed.2 place hplace

/-! ## Bytes of a statement in front -/

theorem PlacedLine.stays_nil (hit : Nat → Bool) : PlacedLine.stays hit [] = false :=
  stays_eq_false_of_isWhitespace (by simp)

/-- A byte that is hit takes its line along, and adds no line that stays. -/
theorem stayingLines_cons_hit (hhit : hit x = true) {line : PlacedLine}
    {lines : List PlacedLine} (hplaced : placedLines places = line :: lines)
    (b : UInt8) :
    stayingLines hit (placedLines ((b, x) :: places)) =
      if isLineBreak b then stayingLines hit (line :: lines)
      else stayingLines hit lines := by
  cases hb : isLineBreak b with
  | true =>
      rw [placedLines_cons_of_break hb,
        stayingLines_cons_of_not_stays (PlacedLine.stays_nil hit), hplaced]
      simp
  | false =>
      have hmissed : PlacedLine.isMissed hit ((b, x) :: line) = false := by
        simp [PlacedLine.isMissed_cons, hhit]
      rw [placedLines_cons hb x hplaced,
        stayingLines_cons_of_not_stays (PlacedLine.stays_eq_false_of_hit hmissed)]
      simp

theorem stayingLines_tail_sublist (line : PlacedLine) (lines : List PlacedLine) :
    (stayingLines hit lines).Sublist (stayingLines hit (line :: lines)) :=
  ((List.sublist_cons_self line lines).filter _).map _

/-- A statement whose last byte ends no line hides the line behind it. -/
theorem KeepsLines.hide (hkeeps : KeepsLines hit places left)
    {run : List (UInt8 × Nat)} (hhit : ∀ place ∈ run, hit place.2 = true)
    {last : UInt8 × Nat} (hlast : isLineBreak last.1 = false)
    (hlastHit : hit last.2 = true) :
    ∃ first others, left.cutLines = first :: others ∧
      (stayingLines hit (placedLines (run ++ last :: places))).Sublist
        (others.map trimEnd) := by
  obtain ⟨line, lines, first, others, hplaced, hleft, -, hlines⟩ :=
    hkeeps.exists_lines
  refine ⟨first, others, hleft, ?_⟩
  induction run with
  | nil =>
      rw [List.nil_append, stayingLines_cons_hit hlastHit hplaced, hlast]
      exact hlines
  | cons place run ih =>
      have hrun := ih fun p hp => hhit p (List.mem_cons_of_mem place hp)
      obtain ⟨line', lines', hplaced'⟩ :=
        List.exists_cons_of_ne_nil (placedLines_ne_nil (run ++ last :: places))
      rw [List.cons_append,
        stayingLines_cons_hit (hhit place List.mem_cons_self) hplaced' place.1]
      rw [hplaced'] at hrun
      split_ifs
      · exact hrun
      · exact (stayingLines_tail_sublist line' lines').trans hrun

/-- A statement goes, whose first and last bytes end no line. -/
theorem KeepsLines.dropStatement (hkeeps : KeepsLines hit places left)
    {run : List (UInt8 × Nat)} (hhit : ∀ place ∈ run, hit place.2 = true)
    (hfirst : ∀ place ∈ run.head?, isLineBreak place.1 = false)
    (hlast : ∀ place ∈ run.getLast?, isLineBreak place.1 = false) :
    KeepsLines hit (run ++ places) left := by
  cases run with
  | nil => exact hkeeps
  | cons place run =>
      have hplace := hhit place List.mem_cons_self
      have hrun : ∀ p ∈ run, hit p.2 = true :=
        fun p hp => hhit p (List.mem_cons_of_mem place hp)
      obtain ⟨line, lines, hplaced⟩ :=
        List.exists_cons_of_ne_nil (placedLines_ne_nil (run ++ places))
      have hbehind : ∃ first others, left.cutLines = first :: others ∧
          (stayingLines hit lines).Sublist (others.map trimEnd) := by
        rcases List.eq_nil_or_concat run with rfl | ⟨init, last, rfl⟩
        · obtain ⟨_, _, first, others, hplaced', hleft, -, hlines⟩ :=
            hkeeps.exists_lines
          obtain ⟨rfl, rfl⟩ := List.cons.inj (hplaced.symm.trans hplaced')
          exact ⟨first, others, hleft, hlines⟩
        · rw [List.concat_eq_append, ← List.cons_append,
            List.getLast?_concat] at hlast
          rw [List.concat_eq_append] at hrun hplaced
          obtain ⟨first, others, hleft, hlines⟩ := hkeeps.hide
            (fun p hp => hrun p (List.mem_append_left _ hp))
            (hlast last rfl) (hrun last (by simp))
          rw [List.append_assoc, List.singleton_append] at hplaced
          rw [hplaced] at hlines
          exact ⟨first, others, hleft,
            (stayingLines_tail_sublist line lines).trans hlines⟩
      obtain ⟨first, others, hleft, hlines⟩ := hbehind
      refine ⟨place :: line, lines, first, others,
        placedLines_cons (hfirst place rfl) place.2 hplaced, hleft, ?_, hlines⟩
      intro hmissed
      simp [PlacedLine.isMissed, hplace] at hmissed

/-! ## Nothing left in front -/

/-- A line end that goes, in front of what is left. -/
theorem KeepsLines.losesFirstLine (hkeeps : KeepsLines hit places left)
    (hb : isLineBreak b = true) (x : Nat) :
    LosesFirstLine hit ((b, x) :: places) left :=
  ⟨[], placedLines places, placedLines_cons_of_break hb x places, by simp,
    hkeeps.sublist⟩

theorem LosesFirstLine.sublist (hloses : LosesFirstLine hit places left) :
    (stayingLines hit (placedLines places)).Sublist (left.cutLines.map trimEnd) := by
  obtain ⟨line, lines, hplaced, hfirst, hlines⟩ := hloses.exists_lines
  have hstays : line.stays hit = false := by
    cases hmissed : line.isMissed hit with
    | true => exact PlacedLine.stays_eq_false_of_isWhitespace (hfirst hmissed)
    | false => exact PlacedLine.stays_eq_false_of_hit hmissed
  rwa [hplaced, stayingLines_cons_of_not_stays hstays]

/-- A byte of a statement or white space that goes, with all in front of it. -/
theorem LosesFirstLine.drop (hloses : LosesFirstLine hit places left)
    (hgoes : hit x = true ∨ isWhitespace b = true) :
    LosesFirstLine hit ((b, x) :: places) left := by
  obtain ⟨line, lines, hplaced, hfirst, hlines⟩ := hloses.exists_lines
  cases hb : isLineBreak b with
  | true =>
      exact ⟨[], placedLines places, placedLines_cons_of_break hb x places, by simp,
        hloses.sublist⟩
  | false =>
      refine ⟨(b, x) :: line, lines, placedLines_cons hb x hplaced, ?_, hlines⟩
      intro hmissed place hplace
      rw [PlacedLine.isMissed_cons, Bool.and_eq_true] at hmissed
      rcases List.mem_cons.mp hplace with rfl | hplace
      · rcases hgoes with hhit | hspace
        · simp [hhit] at hmissed
        · exact hspace
      · exact hfirst hmissed.2 place hplace

/-! ## Runs of bytes in front -/

theorem KeepsLines.keepAll (hkeeps : KeepsLines hit places left) (bytes : Bytes)
    (start : Nat) : KeepsLines hit (bytes.zipIdx start ++ places) (bytes ++ left) := by
  induction bytes generalizing start with
  | nil => exact hkeeps
  | cons b bytes ih => exact (ih (start + 1)).keep b start

theorem KeepsLines.dropSpaces (hkeeps : KeepsLines hit places left)
    (hends : atLineEnd left = true) {bytes : Bytes}
    (hspaces : ∀ b ∈ bytes, isWhitespace b = true) (start : Nat) :
    KeepsLines hit (bytes.zipIdx start ++ places) left := by
  induction bytes generalizing start with
  | nil => exact hkeeps
  | cons b bytes ih =>
      exact (ih (fun c hc => hspaces c (List.mem_cons_of_mem b hc)) (start + 1)).dropSpace
        hends (hspaces b List.mem_cons_self) start

theorem LosesFirstLine.dropAll (hloses : LosesFirstLine hit places left)
    {gone : List (UInt8 × Nat)}
    (hgoes : ∀ place ∈ gone, hit place.2 = true ∨ isWhitespace place.1 = true) :
    LosesFirstLine hit (gone ++ places) left := by
  induction gone with
  | nil => exact hloses
  | cons place gone ih =>
      exact (ih fun p hp => hgoes p (List.mem_cons_of_mem place hp)).drop
        (hgoes place List.mem_cons_self)

end

end LogSweep
