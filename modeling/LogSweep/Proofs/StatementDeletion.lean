import LogSweep.Proofs.DeletedBytes

/-!
# A sweep deletes whole statements

Which offsets are deleted, said of the text and its deleted statements alone:
the statements, the white space that leads back from one that ends its line,
and the line terminator behind one with nothing left in front of it.  Literals
and comments are never touched.
-/

namespace LogSweep

open Byte Bytes SweepState

/-- The byte at the offset `x` belongs to a literal or comment that the sweep
meets. -/
def InLiteral (src : Bytes) (x : Nat) : Prop :=
  ∃ state b tail literal, Reaches src state (b :: tail) ∧
    Literal.opened? state.last b tail = some literal ∧
    state.offset ≤ x ∧ x < state.offset + literal.length

/-- The byte at the offset `x` belongs to a deleted statement, or is white space
outside literals and comments. -/
def IsLooseAt (src : Bytes) (statements : List DeletedStatement) (x : Nat) :
    Prop :=
  (∃ statement ∈ statements, statement.Covers x) ∨
    ∃ b, src[x]? = some b ∧ isWhitespace b = true ∧ ¬ InLiteral src x

/-- Only white space and deleted statements stand from the offset `x` up to the
statement. -/
def DeletedStatement.LeadsBackTo (src : Bytes)
    (statements : List DeletedStatement) (statement : DeletedStatement)
    (x : Nat) : Prop :=
  x < statement.call.start ∧
    ∀ y, x ≤ y → y < statement.call.start → IsLooseAt src statements y

/-- The byte at `x` belongs to the line feed, or carriage return and line feed,
at the offset `stop`. -/
def IsTerminatorAt (src : Bytes) (stop x : Nat) : Prop :=
  src[stop]? = some newline ∧ x = stop ∨
    src[stop]? = some carriageReturn ∧ src[stop + 1]? = some newline ∧
      (x = stop ∨ x = stop + 1)

/-- The bytes of `src` at the offsets in `deleted` are those of the statements,
with the white space and the line terminators that go with them, and nothing
else. -/
structure Deletion (src : Bytes) (statements : List DeletedStatement)
    (deleted : Finset Nat) : Prop where
  spelled :
    ∀ statement ∈ statements, ∃ opening closing,
      statement.Spelled src opening closing
  inOrder :
    statements.Pairwise fun earlier later => earlier.stop ≤ later.call.start
  mem_iff :
    ∀ x, x ∈ deleted ↔
      (∃ statement ∈ statements, statement.Covers x) ∨
      (∃ statement ∈ statements, statement.EndsLine src ∧
        statement.LeadsBackTo src statements x) ∨
      ∃ statement ∈ statements, statement.EndsLine src ∧
        IsTerminatorAt src statement.stop x ∧
        ∀ y < statement.stop, y ∈ deleted
  others :
    ∀ x ∈ deleted, (∀ statement ∈ statements, ¬ statement.Covers x) →
      ∃ b, src[x]? = some b ∧ isWhitespace b = true
  literals : ∀ x, InLiteral src x → x ∉ deleted

theorem Deletion.eq_empty {src : Bytes} {deleted : Finset Nat}
    (hdeletion : Deletion src [] deleted) : deleted = ∅ := by
  apply Finset.eq_empty_of_forall_notMem
  intro x hx
  rcases (hdeletion.mem_iff x).mp hx with h | h | h <;> simp at h

theorem isTerminatorAt_iff {src : Bytes} {stop x : Nat} :
    IsTerminatorAt src stop x ↔
      stop ≤ x ∧ x < stop + terminatorLength (src.drop stop) := by
  have hfirst : src[stop]? = (src.drop stop)[0]? := by
    rw [List.getElem?_drop, Nat.add_zero]
  have hsecond : src[stop + 1]? = (src.drop stop)[1]? := by
    rw [List.getElem?_drop]
  rw [IsTerminatorAt, hfirst, hsecond]
  cases src.drop stop with
  | nil => simp [terminatorLength]
  | cons b rest =>
      simp only [terminatorLength, List.getElem?_cons_zero,
        List.getElem?_cons_succ]
      have hhead : rest.head? = rest[0]? := List.head?_eq_getElem?
      split_ifs with hnewline hreturn
      · subst hnewline
        have hdistinct : newline ≠ carriageReturn := by decide
        simp only [true_and, Option.some.injEq, hdistinct, false_and, or_false]
        omega
      · obtain ⟨rfl, hnext⟩ := hreturn
        have hdistinct : carriageReturn ≠ newline := by decide
        simp only [← hhead, hnext, Option.some.injEq, hdistinct, false_and,
          false_or, true_and]
        omega
      · simp only [Option.some.injEq, hnewline, false_and, false_or]
        constructor
        · rintro ⟨hb, hnext, -⟩
          exact absurd ⟨hb, hhead.trans hnext⟩ hreturn
        · omega

theorem IsTerminatorAt.exists_whitespace {src : Bytes} {stop x : Nat}
    (hterminator : IsTerminatorAt src stop x) :
    ∃ b, src[x]? = some b ∧ isWhitespace b = true := by
  rcases hterminator with ⟨hfeed, rfl⟩ | ⟨hreturn, hfeed, rfl | rfl⟩
  · exact ⟨newline, hfeed, by decide⟩
  · exact ⟨carriageReturn, hreturn, by decide⟩
  · exact ⟨newline, hfeed, by decide⟩

/-- What a segment holds behind its statement is a line terminator, and nothing
is left in front. -/
theorem DeletesStatement.terminator_of_stop_le {src : Bytes}
    {before : List Segment} {segment : Segment} {statement : DeletedStatement}
    {x : Nat} (hdeletes : DeletesStatement src before segment statement)
    (hstop : statement.stop ≤ x)
    (hlt : x < (segmentsText before).length + segment.bytes.length) :
    segment.endsLine = true ∧ surviving true before = [] ∧
      IsTerminatorAt src statement.stop x := by
  have hlength := hdeletes.stop_eq
  split_ifs at hlength with hgoes
  · exact ⟨hgoes.1, hgoes.2, isTerminatorAt_iff.mpr ⟨hstop, by omega⟩⟩
  · omega

/-! ## Which segments are loose -/

/-- Whether it is white space or a deleted statement. -/
def Segment.isLoose (segment : Segment) : Bool :=
  match segment.kind with
  | .space | .removed _ _ _ => true
  | _ => false

theorem Segment.isLoose_iff {segment : Segment} :
    segment.isLoose = true ↔
      segment.kind = .space ∨
        ∃ statement, segment.statement? = some statement := by
  rw [isLoose, statement?]
  cases segment.kind <;> simp

theorem Segment.isLoose_of_statement? {segment : Segment}
    {statement : DeletedStatement}
    (hstatement : segment.statement? = some statement) :
    segment.isLoose = true :=
  isLoose_iff.mpr (Or.inr ⟨statement, hstatement⟩)

theorem goesWithStatement_cons (atEnd : Bool) (segment : Segment)
    (rest : List Segment) :
    goesWithStatement atEnd (segment :: rest) =
      (segment.endsLine ||
        segment.isLoose && goesWithStatement atEnd rest) := by
  rw [goesWithStatement, Segment.endsLine, Segment.isLoose]
  split <;> simp_all

/-- White space goes with a statement if one that ends its line follows, behind
white space and other deleted statements. -/
theorem goesWithStatement_eq_true_iff {segments : List Segment} :
    goesWithStatement false segments = true ↔
      ∃ between segment later, segments = between ++ segment :: later ∧
        segment.endsLine = true ∧ ∀ s ∈ between, s.isLoose = true := by
  induction segments with
  | nil => simp [goesWithStatement]
  | cons first segments ih =>
      rw [goesWithStatement_cons, Bool.or_eq_true, Bool.and_eq_true, ih]
      constructor
      · rintro (hends | ⟨hloose, between, segment, later, rfl, hends, hbetween⟩)
        · exact ⟨[], first, segments, rfl, hends, by simp⟩
        · exact ⟨first :: between, segment, later, rfl, hends,
            by simpa [hloose] using hbetween⟩
      · rintro ⟨between, segment, later, hsplit, hends, hbetween⟩
        cases between with
        | nil =>
            rw [List.nil_append, List.cons.injEq] at hsplit
            exact Or.inl (hsplit.1 ▸ hends)
        | cons head between =>
            rw [List.cons_append, List.cons.injEq] at hsplit
            obtain ⟨rfl, hsplit⟩ := hsplit
            exact Or.inr ⟨hbetween first (by simp), between, segment, later,
              hsplit, hends, fun s hs => hbetween s (by simp [hs])⟩

theorem surviving_eq_nil_iff {atEnd : Bool} {segments : List Segment} :
    surviving atEnd segments = [] ↔
      ∀ before segment after, segments = before ++ segment :: after →
        segment.isDropped atEnd after = true := by
  induction segments with
  | nil => simp [surviving]
  | cons first segments ih =>
      rw [surviving]
      constructor
      · intro hnone before segment after hsplit
        split_ifs at hnone with hdropped
        cases before with
        | nil =>
            rw [List.nil_append, List.cons.injEq] at hsplit
            exact hsplit.1 ▸ hsplit.2 ▸ hdropped
        | cons head before =>
            rw [List.cons_append, List.cons.injEq] at hsplit
            exact ih.mp hnone before segment after hsplit.2
      · intro hdropped
        rw [if_pos (hdropped [] first segments rfl)]
        refine ih.mpr fun before segment after hsplit => ?_
        exact hdropped (first :: before) segment after (by rw [hsplit]; rfl)

section

variable {segment : Segment} {statement : DeletedStatement}

theorem Segment.exists_statement?_of_endsLine
    (hends : segment.endsLine = true) :
    ∃ statement, segment.statement? = some statement := by
  unfold endsLine at hends
  unfold statement?
  cases hkind : segment.kind <;> simp [hkind] at hends ⊢

theorem Segment.isLoose_of_isDropped {atEnd : Bool} {following : List Segment}
    (hdropped : segment.isDropped atEnd following = true) :
    segment.isLoose = true := by
  unfold isDropped at hdropped
  unfold isLoose
  cases hkind : segment.kind <;> simp [hkind] at hdropped ⊢

theorem Segment.isDropped_of_statement?
    (hstatement : segment.statement? = some statement) (atEnd : Bool)
    (following : List Segment) :
    segment.isDropped atEnd following = true := by
  obtain ⟨call, endsLine, terminator, hkind, -⟩ :=
    exists_kind_of_statement? hstatement
  simp [isDropped, hkind]

theorem Segment.isDropped_of_kind_space (hkind : segment.kind = .space)
    (atEnd : Bool) (following : List Segment) :
    segment.isDropped atEnd following = goesWithStatement atEnd following := by
  simp [isDropped, hkind]

theorem DeletesStatement.mem_deletedOffsets {src : Bytes}
    {segments before after : List Segment} {x : Nat}
    (hdeletes : DeletesStatement src before segment statement)
    (hsplit : segments = before ++ segment :: after)
    (hstatement : segment.statement? = some statement)
    (hstart : statement.call.start ≤ x)
    (hstop : x < (segmentsText before).length + segment.bytes.length) :
    x ∈ deletedOffsets segments := by
  have hat : SegmentAt segments x before segment after :=
    ⟨hsplit, hdeletes.start_eq ▸ hstart, hstop⟩
  rw [hat.mem_deletedOffsets_iff]
  exact Segment.isDropped_of_statement? hstatement false after

end

/-- Nothing is left in front of a statement that ends its line if and only if
all bytes in front of it are deleted. -/
theorem surviving_eq_nil_iff_forall_mem {before : List Segment}
    {segment : Segment} (after : List Segment) (hends : segment.endsLine = true) :
    surviving true before = [] ↔
      ∀ y < (segmentsText before).length,
        y ∈ deletedOffsets (before ++ segment :: after) := by
  have hgoes : goesWithStatement false (segment :: after) = true := by
    rw [goesWithStatement_cons, hends, Bool.true_or]
  constructor
  · intro hnone y hy
    obtain ⟨first, owner, last, hat⟩ := exists_segmentAt hy
    have hwhole : SegmentAt (before ++ segment :: after) y first owner
        (last ++ segment :: after) := by
      simpa using hat.within [] (segment :: after)
    rw [hwhole.mem_deletedOffsets_iff, Segment.isDropped_append, hgoes]
    exact surviving_eq_nil_iff.mp hnone first owner last hat.split
  · intro hdeleted
    refine surviving_eq_nil_iff.mpr fun first owner last hsplit => ?_
    have hpos := owner.length_bytes_pos
    have hwhole : SegmentAt (before ++ segment :: after)
        (segmentsText first).length first owner (last ++ segment :: after) :=
      ⟨by rw [hsplit]; simp, le_rfl, by omega⟩
    have hmem := hdeleted (segmentsText first).length (by
      rw [hsplit, segmentsText_append, List.length_append, segmentsText_cons,
        List.length_append]
      omega)
    rwa [hwhole.mem_deletedOffsets_iff, Segment.isDropped_append, hgoes] at hmem

theorem SegmentAt.getElem? {segments before after : List Segment}
    {segment : Segment} {x : Nat}
    (hat : SegmentAt segments x before segment after) :
    ∃ b ∈ segment.bytes, (segmentsText segments)[x]? = some b := by
  obtain ⟨rfl, hstart, hstop⟩ := hat
  have hinside : x - (segmentsText before).length < segment.bytes.length := by
    omega
  refine ⟨segment.bytes[x - (segmentsText before).length],
    List.getElem_mem hinside, ?_⟩
  rw [segmentsText_append, segmentsText_cons,
    List.getElem?_append_right hstart, List.getElem?_append_left hinside,
    List.getElem?_eq_getElem hinside]

namespace SweepState

/-- Outside literals, comments and deleted statements, white space is in
segments of its own. -/
theorem NextSegment.whitespace_iff {src tail : Bytes} {state : SweepState}
    {b c : UInt8} {kind : Segment.Kind} {more : Nat}
    (hsegment : NextSegment src state b tail kind more)
    (hcode : ¬ (kind = .literal ∨ kind = .comment))
    (hstays : ∀ call endsLine terminator,
      kind ≠ .removed call endsLine terminator)
    (hc : c ∈ b :: tail.take more) :
    isWhitespace c = true ↔ kind = .space := by
  have hword : isWord b = true →
      c ∈ b :: tail.take (runLength isWord tail) → isWhitespace c = false := by
    intro hb hmem
    have hclass := forall_mem_run hb tail c hmem
    by_contra hspace
    rw [isWord_of_isWhitespace (by simpa using hspace)] at hclass
    simp at hclass
  cases hsegment with
  | literal => simp at hcode
  | comment => simp at hcode
  | removed => exact absurd rfl (hstays _ _ _)
  | punctuation _ hspace _ =>
      have hcb : c = b := by simpa using hc
      simp [hcb, hspace]
  | word hb => simp [hword hb hc]
  | unclosed hb => simp [hword hb hc]
  | refused hb => simp [hword hb hc]
  | space hspace =>
      simp [forall_mem_run hspace tail c hc]

section

variable {text : String} {final : SweepState} {before after : List Segment}
  {segment : Segment} {x : Nat}

theorem kind_of_inLiteral (hsweep : sweep (ofString text) = .ok final)
    (hat : SegmentAt final.segments.toList x before segment after)
    (hliteral : InLiteral (ofString text) x) :
    segment.kind = .literal ∨ segment.kind = .comment := by
  obtain ⟨state, b, tail, literal, hmet, hopened, hstart, hstop⟩ := hliteral
  have hnext : state.next (.ofText (ofString text)) b tail =
      .ok (if literal.kind.isValue then .literal else .comment,
        literal.more) := by
    rw [next, hopened]
    rfl
  have hcut := hmet.readsText.checkCut hmet.drop_offset.1
    (hmet.nextSegment hnext)
  have hlength : (Segment.mk
      (if literal.kind.isValue then .literal else .comment) b
      (tail.take literal.more)).bytes.length = literal.more + 1 :=
    length_bytes_of_cut hcut
  obtain ⟨later, hlater⟩ := hmet.exists_later_of_step hsweep hnext hcut
  rw [Literal.length] at hstop
  obtain ⟨-, hsame, -⟩ := hat.unique
    ⟨hlater, hmet.offset_eq ▸ hstart,
      by rw [hlength, ← hmet.offset_eq]; exact hstop⟩
  rw [hsame]
  cases literal.kind.isValue <;> simp

theorem Reaches.inLiteral_of_kind {src rest : Bytes}
    (hreach : Reaches src final rest)
    (hat : SegmentAt final.segments.toList x before segment after)
    (hkind : segment.kind = .literal ∨ segment.kind = .comment) :
    InLiteral src x := by
  obtain ⟨earlier, b, tail, more, hearlier, hbefore, hsegment, hnext, hcut⟩ :=
    hreach.cut_at hat.split
  have hlength : segment.bytes.length = more + 1 := by
    rw [hsegment]
    exact length_bytes_of_cut hcut
  have hstart : earlier.offset ≤ x := by
    rw [hearlier.offset_eq, hbefore]
    exact hat.start_le
  have hstop : x < earlier.offset + (more + 1) := by
    rw [hearlier.offset_eq, hbefore, ← hlength]
    exact hat.lt_stop
  rcases hkind with hkind | hkind
  · rw [hkind] at hnext
    cases hnext with
    | @literal literal hopened =>
        exact ⟨earlier, b, tail, literal, hearlier, hopened, hstart, hstop⟩
  · rw [hkind] at hnext
    cases hnext with
    | @comment literal hopened =>
        exact ⟨earlier, b, tail, literal, hearlier, hopened, hstart, hstop⟩

theorem Reaches.inLiteral_iff (hreach : Reaches (ofString text) final [])
    (hsweep : sweep (ofString text) = .ok final)
    (hat : SegmentAt final.segments.toList x before segment after) :
    InLiteral (ofString text) x ↔
      segment.kind = .literal ∨ segment.kind = .comment :=
  ⟨kind_of_inLiteral hsweep hat, hreach.inLiteral_of_kind hat⟩

theorem Reaches.exists_deletesStatement {src rest : Bytes}
    {statement : DeletedStatement} (hreach : Reaches src final rest)
    (hmem : statement ∈ deletedStatements final.segments.toList) :
    ∃ before segment after,
      final.segments.toList = before ++ segment :: after ∧
        segment.statement? = some statement ∧
        DeletesStatement src before segment statement := by
  obtain ⟨segment, hsegment, hstatement⟩ := List.mem_filterMap.mp hmem
  obtain ⟨before, after, hsplit⟩ := List.append_of_mem hsegment
  exact ⟨before, segment, after, hsplit, hstatement,
    hreach.deletesStatement hsplit hstatement⟩

theorem Reaches.covered_iff {src rest : Bytes}
    (hreach : Reaches src final rest)
    (hat : SegmentAt final.segments.toList x before segment after) :
    (∃ statement ∈ deletedStatements final.segments.toList,
        statement.Covers x) ↔
      ∃ statement, segment.statement? = some statement ∧
        x < statement.stop := by
  constructor
  · rintro ⟨statement, hmem, hstart, hstop⟩
    obtain ⟨earlier, owner, later, hsplit, hstatement, hdeletes⟩ :=
      hreach.exists_deletesStatement hmem
    have hlength := hdeletes.stop_eq
    obtain ⟨-, rfl, -⟩ := hat.unique
      ⟨hsplit, hdeletes.start_eq ▸ hstart, by omega⟩
    exact ⟨statement, hstatement, hstop⟩
  · rintro ⟨statement, hstatement, hstop⟩
    have hdeletes := hreach.deletesStatement hat.split hstatement
    refine ⟨statement, ?_, hdeletes.start_eq ▸ hat.start_le, hstop⟩
    rw [hat.split]
    exact List.mem_filterMap.mpr ⟨segment, by simp, hstatement⟩

/-- The loose bytes are those of the loose segments. -/
theorem Reaches.isLooseAt_iff (hreach : Reaches (ofString text) final [])
    (hsweep : sweep (ofString text) = .ok final)
    (hat : SegmentAt final.segments.toList x before segment after) :
    IsLooseAt (ofString text) (deletedStatements final.segments.toList) x ↔
      segment.isLoose = true := by
  rw [IsLooseAt, hreach.covered_iff hat, hreach.inLiteral_iff hsweep hat]
  obtain ⟨b, hmem, hbyte⟩ := hat.getElem?
  rw [show segmentsText final.segments.toList = ofString text by
    simpa using hreach.src_eq.symm] at hbyte
  obtain ⟨earlier, first, tail, more, -, -, hsegment, hnext, -⟩ :=
    hreach.cut_at hat.split
  rw [hsegment] at hmem
  constructor
  · rintro (⟨statement, hstatement, -⟩ | ⟨c, hc, hspace, hcode⟩)
    · exact Segment.isLoose_of_statement? hstatement
    · by_cases hremoved : ∃ call endsLine terminator,
          segment.kind = .removed call endsLine terminator
      · obtain ⟨call, endsLine, terminator, hkind⟩ := hremoved
        simp [Segment.isLoose, hkind]
      · simp only [not_exists] at hremoved
        obtain rfl : b = c := Option.some.inj (hbyte.symm.trans hc)
        have hkind := (hnext.whitespace_iff hcode hremoved hmem).mp hspace
        simp [Segment.isLoose, hkind]
  · intro hloose
    have hcode : ¬ (segment.kind = .literal ∨ segment.kind = .comment) := by
      rintro (hkind | hkind) <;> simp [Segment.isLoose, hkind] at hloose
    rcases Segment.isLoose_iff.mp hloose with hkind | ⟨statement, hstatement⟩
    · have hspace := (hnext.whitespace_iff hcode (by simp [hkind]) hmem).mpr hkind
      exact Or.inr ⟨b, hbyte, hspace, hcode⟩
    · by_cases hlt : x < statement.stop
      · exact Or.inl ⟨statement, hstatement, hlt⟩
      · have hdeletes := hreach.deletesStatement hat.split hstatement
        obtain ⟨-, -, hterminator⟩ :=
          hdeletes.terminator_of_stop_le (by omega) hat.lt_stop
        obtain ⟨c, hc, hspace⟩ := hterminator.exists_whitespace
        exact Or.inr ⟨c, hc, hspace, hcode⟩

/-! ## Which offsets are deleted -/

theorem Reaches.mem_of_covers {src rest : Bytes}
    {statement : DeletedStatement} (hreach : Reaches src final rest)
    (hmem : statement ∈ deletedStatements final.segments.toList)
    (hcovers : statement.Covers x) :
    x ∈ deletedOffsets final.segments.toList := by
  obtain ⟨before, segment, after, hsplit, hstatement, hdeletes⟩ :=
    hreach.exists_deletesStatement hmem
  have hlength := hdeletes.stop_eq
  have hstop := hcovers.2
  exact hdeletes.mem_deletedOffsets hsplit hstatement hcovers.1 (by omega)

theorem Reaches.mem_of_isTerminatorAt {src rest : Bytes}
    {statement : DeletedStatement} (hreach : Reaches src final rest)
    (hmem : statement ∈ deletedStatements final.segments.toList)
    (hends : statement.EndsLine src)
    (hterminator : IsTerminatorAt src statement.stop x)
    (hbefore : ∀ y < statement.stop,
      y ∈ deletedOffsets final.segments.toList) :
    x ∈ deletedOffsets final.segments.toList := by
  obtain ⟨before, segment, after, hsplit, hstatement, hdeletes⟩ :=
    hreach.exists_deletesStatement hmem
  have hline := hdeletes.endsLine_iff.mpr hends
  have hgt := hdeletes.stop_gt
  have hnone : surviving true before = [] := by
    rw [surviving_eq_nil_iff_forall_mem after hline, ← hsplit]
    intro y hy
    exact hbefore y (by rw [← hdeletes.start_eq] at hy; omega)
  have hlength := hdeletes.stop_eq
  rw [if_pos ⟨hline, hnone⟩] at hlength
  obtain ⟨hstop, hlt⟩ := isTerminatorAt_iff.mp hterminator
  exact hdeletes.mem_deletedOffsets hsplit hstatement (hgt.le.trans hstop)
    (by omega)

theorem Reaches.mem_of_leadsBackTo
    {statement : DeletedStatement} (hreach : Reaches (ofString text) final [])
    (hsweep : sweep (ofString text) = .ok final)
    (hmem : statement ∈ deletedStatements final.segments.toList)
    (hends : statement.EndsLine (ofString text))
    (hleads : statement.LeadsBackTo (ofString text)
      (deletedStatements final.segments.toList) x) :
    x ∈ deletedOffsets final.segments.toList := by
  obtain ⟨hlt, hloose⟩ := hleads
  obtain ⟨before, segment, after, hsplit, hstatement, hdeletes⟩ :=
    hreach.exists_deletesStatement hmem
  rw [hdeletes.start_eq] at hlt
  obtain ⟨first, owner, between, hinner⟩ := exists_segmentAt hlt
  have hat : SegmentAt final.segments.toList x first owner
      (between ++ segment :: after) := by
    rw [hsplit]
    simpa using hinner.within [] (segment :: after)
  have hstop := hat.lt_stop
  have hbefore := congrArg (fun s => (segmentsText s).length) hinner.split
  simp only [segmentsText_append, segmentsText_cons, List.length_append]
    at hbefore
  rw [hat.mem_deletedOffsets_iff]
  -- what is between `x` and the statement consists of loose segments
  have hbetween : ∀ s ∈ between, s.isLoose = true := by
    intro s hs
    obtain ⟨left, right, rfl⟩ := List.append_of_mem hs
    have hpos := s.length_bytes_pos
    simp only [segmentsText_append, segmentsText_cons, List.length_append]
      at hbefore
    have hwhole : SegmentAt final.segments.toList
        (segmentsText (first ++ owner :: left)).length (first ++ owner :: left)
        s (right ++ segment :: after) :=
      ⟨by rw [hat.split]; simp, le_rfl, by omega⟩
    rw [← hreach.isLooseAt_iff hsweep hwhole]
    apply hloose
    · simp only [segmentsText_append, segmentsText_cons, List.length_append]
      omega
    · rw [hdeletes.start_eq]
      simp only [segmentsText_append, segmentsText_cons, List.length_append]
      omega
  have howner := (hreach.isLooseAt_iff hsweep hat).mp
    (hloose x le_rfl (by rw [hdeletes.start_eq]; exact hlt))
  rcases Segment.isLoose_iff.mp howner with hspace | ⟨other, hother⟩
  · rw [Segment.isDropped_of_kind_space hspace, goesWithStatement_eq_true_iff]
    exact ⟨between, segment, after, rfl, hdeletes.endsLine_iff.mpr hends,
      hbetween⟩
  · exact Segment.isDropped_of_statement? hother false _

/-- White space that is deleted leads up to a statement that ends its line. -/
theorem Reaches.exists_leadsBackTo (hreach : Reaches (ofString text) final [])
    (hsweep : sweep (ofString text) = .ok final)
    (hat : SegmentAt final.segments.toList x before segment after)
    (hloose : segment.isLoose = true)
    (hgoes : goesWithStatement false after = true) :
    ∃ statement ∈ deletedStatements final.segments.toList,
      statement.EndsLine (ofString text) ∧
        statement.LeadsBackTo (ofString text)
          (deletedStatements final.segments.toList) x := by
  obtain ⟨between, owner, later, rfl, hends, hbetween⟩ :=
    goesWithStatement_eq_true_iff.mp hgoes
  obtain ⟨statement, hstatement⟩ :=
    Segment.exists_statement?_of_endsLine hends
  have hsplit : final.segments.toList =
      (before ++ segment :: between) ++ owner :: later := by
    rw [hat.split]
    simp
  have hdeletes := hreach.deletesStatement hsplit hstatement
  have hstart := hat.start_le
  have hstop := hat.lt_stop
  have hlength := hdeletes.start_eq
  refine ⟨statement, ?_, hdeletes.endsLine_iff.mp hends, ?_, ?_⟩
  · rw [hsplit]
    exact List.mem_filterMap.mpr ⟨owner, by simp, hstatement⟩
  · rw [hlength, segmentsText_append, segmentsText_cons, List.length_append,
      List.length_append]
    omega
  · intro y hxy hy
    rw [hlength, segmentsText_append, List.length_append] at hy
    obtain ⟨first, s, last, hinner⟩ := exists_segmentAt
      (show y - (segmentsText before).length <
        (segmentsText (segment :: between)).length by omega)
    have hwhole := hinner.within before (owner :: later)
    rw [← hsplit, Nat.add_sub_cancel' (by omega)] at hwhole
    rw [hreach.isLooseAt_iff hsweep hwhole]
    have hs : s ∈ segment :: between := by
      rw [hinner.split]
      simp
    rcases List.mem_cons.mp hs with rfl | hs
    · exact hloose
    · exact hbetween s hs

theorem Reaches.exists_terminator {src rest : Bytes}
    {statement : DeletedStatement} (hreach : Reaches src final rest)
    (hat : SegmentAt final.segments.toList x before segment after)
    (hstatement : segment.statement? = some statement)
    (hstop : statement.stop ≤ x) :
    ∃ statement ∈ deletedStatements final.segments.toList,
      statement.EndsLine src ∧ IsTerminatorAt src statement.stop x ∧
        ∀ y < statement.stop, y ∈ deletedOffsets final.segments.toList := by
  have hdeletes := hreach.deletesStatement hat.split hstatement
  obtain ⟨hends, hnone, hterminator⟩ :=
    hdeletes.terminator_of_stop_le hstop hat.lt_stop
  refine ⟨statement, ?_, hdeletes.endsLine_iff.mp hends, hterminator, ?_⟩
  · rw [hat.split]
    exact List.mem_filterMap.mpr ⟨segment, by simp, hstatement⟩
  · intro y hy
    have hlt := hat.lt_stop
    by_cases hbefore : y < (segmentsText before).length
    · rw [hat.split]
      exact (surviving_eq_nil_iff_forall_mem after hends).mp hnone y hbefore
    · exact hdeletes.mem_deletedOffsets hat.split hstatement
        (by rw [hdeletes.start_eq]; omega) (by omega)

theorem Reaches.mem_deletedOffsets_iff
    (hreach : Reaches (ofString text) final [])
    (hsweep : sweep (ofString text) = .ok final) (x : Nat) :
    x ∈ deletedOffsets final.segments.toList ↔
      (∃ statement ∈ deletedStatements final.segments.toList,
        statement.Covers x) ∨
      (∃ statement ∈ deletedStatements final.segments.toList,
        statement.EndsLine (ofString text) ∧
        statement.LeadsBackTo (ofString text)
          (deletedStatements final.segments.toList) x) ∨
      ∃ statement ∈ deletedStatements final.segments.toList,
        statement.EndsLine (ofString text) ∧
        IsTerminatorAt (ofString text) statement.stop x ∧
        ∀ y < statement.stop, y ∈ deletedOffsets final.segments.toList := by
  constructor
  · intro hdeleted
    obtain ⟨before, segment, after, hat, hdeleted⟩ := exists_dropped_of_mem_deletedOffsets hdeleted
    have hloose := Segment.isLoose_of_isDropped hdeleted
    rcases Segment.isLoose_iff.mp hloose with hspace | ⟨statement, hstatement⟩
    · rw [Segment.isDropped_of_kind_space hspace] at hdeleted
      exact Or.inr (Or.inl
        (hreach.exists_leadsBackTo hsweep hat hloose hdeleted))
    · by_cases hstop : x < statement.stop
      · exact Or.inl ((hreach.covered_iff hat).mpr ⟨statement, hstatement, hstop⟩)
      · exact Or.inr (Or.inr
          (hreach.exists_terminator hat hstatement (by omega)))
  · rintro (⟨statement, hmem, hcovers⟩ | ⟨statement, hmem, hends, hleads⟩ |
      ⟨statement, hmem, hends, hterminator, hbefore⟩)
    · exact hreach.mem_of_covers hmem hcovers
    · exact hreach.mem_of_leadsBackTo hsweep hmem hends hleads
    · exact hreach.mem_of_isTerminatorAt hmem hends hterminator hbefore

/-! ## The deletion -/

theorem Reaches.statements_inOrder {src : Bytes} {state : SweepState}
    {rest : Bytes} (hreach : Reaches src state rest) :
    (deletedStatements state.segments.toList).Pairwise
        (fun earlier later => earlier.stop ≤ later.call.start) ∧
      ∀ statement ∈ deletedStatements state.segments.toList,
        statement.stop ≤ state.offset := by
  induction hreach with
  | start => simp [initial, deletedStatements]
  | @step state b tail kind more hreach hnext hcut ih =>
      obtain ⟨hpairwise, hbehind⟩ := ih
      have hlater := Reaches.step hreach hnext hcut
      have hgrows := push_offset state ⟨kind, b, tail.take more⟩
      have hsplit : (state.push ⟨kind, b, tail.take more⟩).segments.toList =
          state.segments.toList ++ ⟨kind, b, tail.take more⟩ :: [] := by
        rw [toList_push_segments]
      cases hstatement : (Segment.mk kind b (tail.take more)).statement? with
      | none =>
          rw [hsplit, deletedStatements, List.filterMap_append,
            List.filterMap_cons_none hstatement, List.filterMap_nil,
            List.append_nil]
          exact ⟨hpairwise, fun s hs => (hbehind s hs).trans (by omega)⟩
      | some statement =>
          have hdeletes := hlater.deletesStatement hsplit hstatement
          have hlength := hdeletes.stop_eq
          have hstart := hdeletes.start_eq
          rw [← hreach.offset_eq] at hlength hstart
          rw [hsplit, deletedStatements, List.filterMap_append,
            List.filterMap_cons_some hstatement, List.filterMap_nil]
          constructor
          · rw [List.pairwise_append]
            refine ⟨hpairwise, by simp, fun earlier hearlier later hlast => ?_⟩
            rw [List.mem_singleton.mp hlast, hstart]
            exact hbehind earlier hearlier
          · intro s hs
            rcases List.mem_append.mp hs with hs | hs
            · exact (hbehind s hs).trans (by omega)
            · rw [List.mem_singleton.mp hs]
              omega

theorem map_call_deletedStatements (segments : List Segment) :
    (deletedStatements segments).map DeletedStatement.call =
      (segments.filterMap Segment.finding?).filterMap Finding.removed? := by
  rw [deletedStatements, List.map_filterMap, List.filterMap_filterMap]
  congr 1
  funext segment
  rw [Segment.statement?, Segment.finding?]
  cases segment.kind <;> rfl

theorem Reaches.deletion (hreach : Reaches (ofString text) final [])
    (hsweep : sweep (ofString text) = .ok final) :
    Deletion (ofString text) (deletedStatements final.segments.toList)
      (deletedOffsets final.segments.toList) where
  spelled statement hmem := by
    obtain ⟨before, segment, after, -, -, hdeletes⟩ :=
      hreach.exists_deletesStatement hmem
    exact hdeletes.spelled
  inOrder := hreach.statements_inOrder.1
  mem_iff := hreach.mem_deletedOffsets_iff hsweep
  others x hdeleted hapart := by
    have hcovered : ¬ ∃ statement ∈ deletedStatements final.segments.toList,
        statement.Covers x :=
      fun ⟨statement, hmem, hcovers⟩ => hapart statement hmem hcovers
    rcases (hreach.mem_deletedOffsets_iff hsweep x).mp hdeleted with
      hcovers | ⟨_, -, -, hlt, hloose⟩ | ⟨_, -, -, hterminator, -⟩
    · exact absurd hcovers hcovered
    · obtain ⟨b, hbyte, hspace, -⟩ :=
        (hloose x le_rfl hlt).resolve_left hcovered
      exact ⟨b, hbyte, hspace⟩
    · exact hterminator.exists_whitespace
  literals x hliteral hdeleted := by
    obtain ⟨before, segment, after, hat, hdeleted⟩ := exists_dropped_of_mem_deletedOffsets hdeleted
    have hloose := Segment.isLoose_of_isDropped hdeleted
    rcases (hreach.inLiteral_iff hsweep hat).mp hliteral with hkind | hkind <;>
      simp [Segment.isLoose, hkind] at hloose

end

end SweepState

/-- The deletion that the state at the end of a sweep tells of. -/
theorem exists_final_deletion (text : String) :
    ∃ final report, Reaches (ofString text) final [] ∧ sweepText text = .ok report ∧
      (deletedStatements final.segments.toList).map DeletedStatement.call = report.removed ∧
      Deletion (ofString text) (deletedStatements final.segments.toList)
        (deletedOffsets final.segments.toList) ∧
      ofString report.text =
        (ofString text).without (deletedOffsets final.segments.toList) := by
  obtain ⟨final, report, hsweep, hreach, hreport, htext, hfindings⟩ :=
    exists_sweepText text
  refine ⟨final, report, hreach, hreport, ?_, hreach.deletion hsweep, ?_⟩
  · rw [map_call_deletedStatements, Report.removed, hfindings]
  · rw [htext, hreach.writesSurviving.output, ← without_deletedOffsets]
    congr 1
    simpa using hreach.src_eq.symm

theorem exists_deletion (text : String) :
    ∃ report statements deleted, sweepText text = .ok report ∧
      statements.map DeletedStatement.call = report.removed ∧
      Deletion (ofString text) statements deleted ∧
      ofString report.text = (ofString text).without deleted := by
  rcases exists_final_deletion text with ⟨final, report, -, hdeletes⟩
  exact ⟨report, _, _, hdeletes⟩

theorem text_eq_of_removed_eq_nil {text : String} {report : Report}
    (hreport : sweepText text = .ok report) (hnone : report.removed = []) :
    report.text = text := by
  obtain ⟨report', statements, deleted, hreport', hremoved, hdeletion, hleft⟩ :=
    exists_deletion text
  obtain rfl := Except.ok.inj (hreport.symm.trans hreport')
  rw [hnone, List.map_eq_nil_iff] at hremoved
  rw [hremoved] at hdeletion
  rw [hdeletion.eq_empty, without_empty] at hleft
  exact ofString_injective hleft

/-- A sweep deletes whole statements, one for each call that it reports as
removed, with the white space and line terminators that go with them; all other
bytes stay, in order.  If it removes no call, it changes nothing. -/
theorem sweepText_deletes_statements (text : String) :
    ∃ report statements deleted, sweepText text = .ok report ∧
      statements.map DeletedStatement.call = report.removed ∧
      Deletion (ofString text) statements deleted ∧
      ofString report.text = (ofString text).without deleted ∧
      (report.removed = [] → report.text = text) := by
  obtain ⟨report, statements, deleted, hreport, hremoved, hdeletion, hleft⟩ :=
    exists_deletion text
  exact ⟨report, statements, deleted, hreport, hremoved, hdeletion, hleft,
    text_eq_of_removed_eq_nil hreport⟩

/-- A call that is the whole body of a loop stays, and so does every byte.  One on
the first line goes with the white space in front of it and the line feed behind
it, and nothing else does. -/
theorem sweepText_deletes_statements_sole_body :
    (∃ report, sweepText "while (x) console.log(x) // y\n" = .ok report ∧
      report.removed = [] ∧
      report.text = "while (x) console.log(x) // y\n") ∧
    ∃ src statement deleted, src = ofString "  console.log(1);\nb" ∧
      sweepText "  console.log(1);\nb" = .ok ⟨"b", [.removed statement.call]⟩ ∧
      Deletion src [statement] deleted ∧
      (∀ x < src.length, x ∈ deleted ↔ x < 18) ∧
      statement.Covers 2 ∧ statement.EndsLine src ∧
      statement.LeadsBackTo src [statement] 0 ∧
      IsTerminatorAt src statement.stop 17 := by
  constructor
  · obtain ⟨report, statements, deleted, hreport, -, -, -, hsame⟩ :=
      sweepText_deletes_statements "while (x) console.log(x) // y\n"
    have hkept : sweepText "while (x) console.log(x) // y\n" =
        .ok ⟨"while (x) console.log(x) // y\n",
          [.kept ⟨.log, 10, 1⟩ .soleBody]⟩ := by
      decide +kernel
    obtain rfl := Except.ok.inj (hreport.symm.trans hkept)
    exact ⟨_, hreport, rfl, hsame rfl⟩
  · rcases sweepText_deletes_statements "  console.log(1);\nb" with
      ⟨report, statements, deleted, hreport, hcalls, hdeletion, hleft, -⟩
    have hswept : sweepText "  console.log(1);\nb" = .ok ⟨"b", [.removed ⟨.log, 2, 1⟩]⟩ := by
      decide +kernel
    rw [hswept, Except.ok.injEq] at hreport
    subst hreport
    rcases List.map_eq_singleton_iff.mp hcalls with ⟨statement, rfl, hcall⟩
    have hother : ∀ x < 18, ∀ b ∈ (ofString "  console.log(1);\nb")[x]?, b ≠ 98 := by
      decide +kernel
    have hgone : ∀ x < 18, x ∈ deleted := by
      intro x hx
      by_contra hstays
      have hbyte := List.getElem?_eq_getElem
        (show x < (ofString "  console.log(1);\nb").length from hx.trans (by decide))
      have hmem := Bytes.mem_without_iff.mpr ⟨x, hstays, hbyte⟩
      rw [← hleft] at hmem
      exact hother x hx _ hbyte (List.mem_singleton.mp hmem)
    have hkept : 18 ∉ deleted := by
      have hmem : 98 ∈ (ofString "  console.log(1);\nb").without deleted := by
        rw [← hleft]
        decide
      rcases Bytes.mem_without_iff.mp hmem with ⟨x, hstays, hbyte⟩
      have hlast : x = 18 := by
        have hlt := (List.getElem?_eq_some_iff.mp hbyte).1
        have hle : 18 ≤ x := not_lt.mp fun hlt => hstays (hgone x hlt)
        have hlength : (ofString "  console.log(1);\nb").length = 19 := by decide
        omega
      exact hlast ▸ hstays
    rcases hdeletion.spelled statement List.mem_cons_self with ⟨_, _, hspelled⟩
    have hgrows := hspelled.start_lt_stop
    have hstart : statement.call.start = 2 := by rw [hcall]
    have hwhite : statement.EndsLine (ofString "  console.log(1);\nb") ∧
        statement.LeadsBackTo (ofString "  console.log(1);\nb") [statement] 0 := by
      rcases (hdeletion.mem_iff 0).mp (hgone 0 (by decide)) with
        ⟨other, hother, hcovers, -⟩ | ⟨other, hother, hleads⟩ | ⟨other, hother, -, hterminator, -⟩
      · rw [List.mem_singleton.mp hother, hstart] at hcovers
        cases hcovers
      · rwa [List.mem_singleton.mp hother] at hleads
      · have hle := (isTerminatorAt_iff.mp hterminator).1
        rw [List.mem_singleton.mp hother] at hle
        omega
    have hfeed : IsTerminatorAt (ofString "  console.log(1);\nb") statement.stop 17 := by
      rcases (hdeletion.mem_iff 17).mp (hgone 17 (by decide)) with
        ⟨other, hother, -, hlt⟩ | ⟨other, hother, -, hlt, -⟩ | ⟨other, hother, -, hterminator, -⟩
      · -- the statement would cover the last byte too, or end in front of it
        exfalso
        rw [List.mem_singleton.mp hother] at hlt
        rcases Nat.eq_or_lt_of_le hlt with hstop | hbehind
        · have hbreak := hwhite.1 98 (by rw [← hstop]; decide)
          exact absurd hbreak (by decide)
        · exact hkept ((hdeletion.mem_iff 18).mpr
            (.inl ⟨statement, List.mem_cons_self, by omega, hbehind⟩))
      · rw [List.mem_singleton.mp hother, hstart] at hlt
        omega
      · rwa [List.mem_singleton.mp hother] at hterminator
    refine ⟨_, statement, deleted, rfl, ?_, hdeletion, ?_, ⟨by omega, by omega⟩, hwhite.1,
      hwhite.2, hfeed⟩
    · rw [hswept, hcall]
    · intro x hx
      have hlength : (ofString "  console.log(1);\nb").length = 19 := by decide
      constructor
      · intro hdeleted
        by_contra hge
        have hlast : x = 18 := by omega
        exact hkept (hlast ▸ hdeleted)
      · exact hgone x

end LogSweep
