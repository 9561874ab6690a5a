import Mathlib.Data.Finset.Range
import Mathlib.Data.Finset.Filter
import LogSweep.Proofs.SurvivingSegments
import LogSweep.Proofs.SweepTotality

/-!
# The bytes that a sweep deletes

Said by offsets: what is left is the text without a set of bytes, and these are
the deleted statements, the white space in front of those that end their line,
and one line terminator where nothing is in front of them.  A segment is
deleted whole or not at all, so the offsets lead back to `surviving`.
-/

namespace LogSweep

open Byte Bytes SweepState

/-! ## The segment at an offset -/

/-- The byte at the offset `x` lies in this segment of the list. -/
structure SegmentAt (segments : List Segment) (x : Nat)
    (before : List Segment) (segment : Segment) (after : List Segment) :
    Prop where
  split : segments = before ++ segment :: after
  start_le : (segmentsText before).length ≤ x
  lt_stop : x < (segmentsText before).length + segment.bytes.length

theorem exists_segmentAt {segments : List Segment} {x : Nat}
    (hx : x < (segmentsText segments).length) :
    ∃ before segment after, SegmentAt segments x before segment after := by
  induction segments generalizing x with
  | nil => simp at hx
  | cons first segments ih =>
      by_cases hfirst : x < first.bytes.length
      · exact ⟨[], first, segments, rfl, by simp, by simpa using hfirst⟩
      · rw [segmentsText_cons, List.length_append] at hx
        obtain ⟨before, segment, after, hsplit, hstart, hstop⟩ :=
          ih (show x - first.bytes.length < _ by omega)
        refine ⟨first :: before, segment, after, by rw [hsplit]; rfl, ?_, ?_⟩
        · rw [segmentsText_cons, List.length_append]
          omega
        · rw [segmentsText_cons, List.length_append]
          omega

theorem SegmentAt.within {segments before after : List Segment}
    {segment : Segment} {x : Nat}
    (hat : SegmentAt segments x before segment after)
    (first last : List Segment) :
    SegmentAt (first ++ segments ++ last) ((segmentsText first).length + x)
      (first ++ before) segment (after ++ last) := by
  obtain ⟨rfl, hstart, hstop⟩ := hat
  refine ⟨by simp, ?_, ?_⟩
  · rw [segmentsText_append, List.length_append]
    omega
  · rw [segmentsText_append, List.length_append]
    omega

theorem SegmentAt.unique {segments before after before' after' : List Segment}
    {segment segment' : Segment} {x : Nat}
    (hat : SegmentAt segments x before segment after)
    (hat' : SegmentAt segments x before' segment' after') :
    before = before' ∧ segment = segment' ∧ after = after' := by
  obtain ⟨hsplit, hstart, hstop⟩ := hat
  obtain ⟨hsplit', hstart', hstop'⟩ := hat'
  -- if one segment came before the other, it would end before `x`
  rcases List.append_eq_append_iff.mp (hsplit.symm.trans hsplit') with
    ⟨skipped, rfl, htail⟩ | ⟨skipped, rfl, htail⟩
  · cases skipped with
    | nil => simpa using htail
    | cons first skipped =>
        rw [List.cons_append, List.cons.injEq] at htail
        rw [segmentsText_append, segmentsText_cons, List.length_append,
          List.length_append, ← htail.1] at hstart'
        omega
  · cases skipped with
    | nil => simpa [eq_comm] using htail
    | cons first skipped =>
        rw [List.cons_append, List.cons.injEq] at htail
        rw [segmentsText_append, segmentsText_cons, List.length_append,
          List.length_append, ← htail.1] at hstart
        omega

theorem segment_eq_of_start_eq {segments before after before' after' : List Segment}
    {segment segment' : Segment}
    (hsplit : segments = before ++ segment :: after)
    (hsplit' : segments = before' ++ segment' :: after')
    (hstart : (segmentsText before).length = (segmentsText before').length) :
    segment = segment' := by
  have hpos := segment.length_bytes_pos
  have hpos' := segment'.length_bytes_pos
  have hat : SegmentAt segments (segmentsText before).length before segment
      after := ⟨hsplit, le_rfl, by omega⟩
  have hat' : SegmentAt segments (segmentsText before).length before' segment'
      after' := ⟨hsplit', hstart.ge, by omega⟩
  exact (hat.unique hat').2.1

/-! ## The text without some of its bytes -/

/-- The bytes at all other offsets, in order. -/
def Bytes.without (deleted : Finset Nat) (bytes : Bytes) : Bytes :=
  (bytes.zipIdx.filter fun place => place.2 ∉ deleted).map Prod.fst

theorem Bytes.without_empty (bytes : Bytes) : bytes.without ∅ = bytes := by
  simp [Bytes.without]

theorem Bytes.mem_without_iff {deleted : Finset Nat} {bytes : Bytes} {b : UInt8} :
    b ∈ bytes.without deleted ↔ ∃ x ∉ deleted, bytes[x]? = some b := by
  simp only [Bytes.without, List.mem_map, List.mem_filter, List.mem_zipIdx_iff_getElem?,
    decide_eq_true_iff]
  constructor
  · rintro ⟨place, ⟨hbyte, hleft⟩, rfl⟩
    exact ⟨place.2, hleft, hbyte⟩
  · rintro ⟨x, hleft, hbyte⟩
    exact ⟨(b, x), ⟨hbyte, hleft⟩, rfl⟩

/-- Whether the byte at an offset belongs to a segment that is left out. -/
def isDeletedAt : List Segment → Nat → Bool
  | [], _ => false
  | segment :: rest, x =>
    if x < segment.bytes.length then segment.isDropped false rest
    else isDeletedAt rest (x - segment.bytes.length)

/-- The offsets of the bytes that are left out. -/
def deletedOffsets (segments : List Segment) : Finset Nat :=
  (Finset.range (segmentsText segments).length).filter
    fun x => isDeletedAt segments x = true

theorem SegmentAt.isDeletedAt_eq {segments before after : List Segment}
    {segment : Segment} {x : Nat}
    (hat : SegmentAt segments x before segment after) :
    isDeletedAt segments x = segment.isDropped false after := by
  obtain ⟨rfl, hstart, hstop⟩ := hat
  induction before generalizing x with
  | nil =>
      rw [List.nil_append, isDeletedAt, if_pos (by simpa using hstop)]
  | cons first before ih =>
      rw [segmentsText_cons, List.length_append] at hstart hstop
      rw [List.cons_append, isDeletedAt, if_neg (by omega)]
      exact ih (by omega) (by omega)

theorem SegmentAt.mem_deletedOffsets_iff {segments before after : List Segment}
    {segment : Segment} {x : Nat}
    (hat : SegmentAt segments x before segment after) :
    x ∈ deletedOffsets segments ↔ segment.isDropped false after = true := by
  have hlt : x < (segmentsText segments).length := by
    obtain ⟨rfl, hstart, hstop⟩ := hat
    rw [segmentsText_append, List.length_append, segmentsText_cons,
      List.length_append]
    omega
  simp [deletedOffsets, hlt, hat.isDeletedAt_eq]

theorem exists_dropped_of_mem_deletedOffsets {segments : List Segment} {x : Nat}
    (hdeleted : x ∈ deletedOffsets segments) :
    ∃ before segment after, SegmentAt segments x before segment after ∧
      segment.isDropped false after = true := by
  have hlt : x < (segmentsText segments).length :=
    List.mem_range.mp (Finset.mem_filter.mp hdeleted).1
  obtain ⟨before, segment, after, hat⟩ := exists_segmentAt hlt
  exact ⟨before, segment, after, hat, hat.mem_deletedOffsets_iff.mp hdeleted⟩

theorem filter_isDeletedAt (segments : List Segment) (start : Nat) :
    (((segmentsText segments).zipIdx start).filter
        fun place => !isDeletedAt segments (place.2 - start)).map Prod.fst =
      segmentsText (surviving false segments) := by
  induction segments generalizing start with
  | nil => rfl
  | cons segment segments ih =>
      rw [segmentsText_cons, List.zipIdx_append, List.filter_append,
        List.map_append]
      have hfirst : (segment.bytes.zipIdx start).filter
          (fun place => !isDeletedAt (segment :: segments) (place.2 - start)) =
          (segment.bytes.zipIdx start).filter
            (fun _ => !segment.isDropped false segments) := by
        apply List.filter_congr
        rintro ⟨b, x⟩ hmem
        have hx := List.mem_zipIdx hmem
        rw [isDeletedAt, if_pos (by omega)]
      have hlater : ((segmentsText segments).zipIdx
          (start + segment.bytes.length)).filter
          (fun place => !isDeletedAt (segment :: segments) (place.2 - start)) =
          ((segmentsText segments).zipIdx
            (start + segment.bytes.length)).filter
            (fun place => !isDeletedAt segments
              (place.2 - (start + segment.bytes.length))) := by
        apply List.filter_congr
        rintro ⟨b, x⟩ hmem
        have hx := List.mem_zipIdx hmem
        rw [isDeletedAt, if_neg (by omega), Nat.sub_sub]
      rw [hfirst, hlater, ih, surviving]
      cases hdropped : segment.isDropped false segments <;> simp

theorem without_deletedOffsets (segments : List Segment) :
    (segmentsText segments).without (deletedOffsets segments) =
      segmentsText (surviving false segments) := by
  rw [← filter_isDeletedAt segments 0, Bytes.without]
  congr 1
  apply List.filter_congr
  rintro ⟨b, x⟩ hmem
  have hx := List.mem_zipIdx hmem
  have hlt : x < (segmentsText segments).length := by omega
  simp [deletedOffsets, hlt]

/-! ## Deleted statements -/

/-- A deleted statement: the call that it starts with, and where it stops. -/
structure DeletedStatement where
  call : Call
  stop : Nat

namespace DeletedStatement

/-- The byte at the offset `x` belongs to the statement. -/
def Covers (statement : DeletedStatement) (x : Nat) : Prop :=
  statement.call.start ≤ x ∧ x < statement.stop

/-- How a statement with its parentheses at `opening` and `closing` is spelled:
the receiver, a dot, the method's name as a whole word, white space, what the
parentheses hold, blanks, and a semicolon with more blanks or none. -/
structure Spelled (src : Bytes) (statement : DeletedStatement)
    (opening closing : Nat) : Prop where
  head :
    ∃ gap after, (∀ b ∈ gap, isWhitespace b = true) ∧
      src.drop statement.call.start = ofString receiver ++
        (dot :: ofString statement.call.method.name ++ gap ++
          openParen :: after) ∧
      opening = statement.call.start + (ofString receiver).length +
        (dot :: ofString statement.call.method.name ++ gap).length
  name :
    src.wordEnd (statement.call.start + (ofString receiver).length + 1) =
      .ok (statement.call.start + (ofString receiver).length + 1 +
        (ofString statement.call.method.name).length)
  closed : closingFrom src opening openParen closeParen = .found closing
  closingByte : src[closing]? = some closeParen
  ending :
    ∃ spelled beyond, src.drop (closing + 1) = spelled ++ beyond ∧
      SpellsEnding spelled ∧ statement.stop = closing + 1 + spelled.length

/-- The line ends behind the statement: with the text, or at a line feed or
carriage return. -/
def EndsLine (src : Bytes) (statement : DeletedStatement) : Prop :=
  ∀ b, src[statement.stop]? = some b → b = newline ∨ b = carriageReturn

theorem endsLine_iff {src : Bytes} {statement : DeletedStatement} :
    statement.EndsLine src ↔ atLineEnd (src.drop statement.stop) = true := by
  unfold EndsLine
  rw [← List.head?_drop]
  cases src.drop statement.stop with
  | nil => simp [atLineEnd]
  | cons b rest => simp [atLineEnd]

end DeletedStatement

theorem DeletedStatement.Spelled.start_lt_stop {src : Bytes} {statement : DeletedStatement}
    {opening closing : Nat} (hspelled : statement.Spelled src opening closing) :
    statement.call.start < statement.stop := by
  rcases hspelled.head with ⟨gap, after, -, -, hopening⟩
  rcases hspelled.ending with ⟨spelled, beyond, -, -, hstop⟩
  have hle := (closingFrom_found hspelled.closed).1
  omega

/-- The statement that a segment deletes. -/
def Segment.statement? (segment : Segment) : Option DeletedStatement :=
  match segment.kind with
  | .removed call _ terminator =>
    some ⟨call, call.start + (segment.bytes.length - terminator)⟩
  | _ => none

theorem Segment.exists_kind_of_statement? {segment : Segment}
    {statement : DeletedStatement}
    (hstatement : segment.statement? = some statement) :
    ∃ call endsLine terminator,
      segment.kind = .removed call endsLine terminator ∧
        statement =
          ⟨call, call.start + (segment.bytes.length - terminator)⟩ := by
  unfold statement? at hstatement
  split at hstatement
  · rename_i call endsLine terminator hkind
    simp only [Option.some.injEq] at hstatement
    exact ⟨call, endsLine, terminator, hkind, hstatement.symm⟩
  · simp at hstatement

/-- Whether it is a deleted statement that ends its line. -/
def Segment.endsLine (segment : Segment) : Bool :=
  match segment.kind with
  | .removed _ endsLine _ => endsLine
  | _ => false

def deletedStatements (segments : List Segment) : List DeletedStatement :=
  segments.filterMap Segment.statement?

/-- A segment of a sweep that deletes a statement.  It starts where the
segments before it end and consists of the statement and, if all in front of it
is deleted with it, of the line terminator behind it. -/
structure DeletesStatement (src : Bytes) (before : List Segment)
    (segment : Segment) (statement : DeletedStatement) : Prop where
  start_eq : statement.call.start = (segmentsText before).length
  stop_gt : statement.call.start < statement.stop
  spelled : ∃ opening closing, statement.Spelled src opening closing
  endsLine_iff : segment.endsLine = true ↔ statement.EndsLine src
  stop_eq :
    statement.stop +
        (if segment.endsLine = true ∧ surviving true before = [] then
          terminatorLength (src.drop statement.stop) else 0) =
      (segmentsText before).length + segment.bytes.length

theorem segmentsText_eq_nil_iff {segments : List Segment} :
    segmentsText segments = [] ↔ segments = [] := by
  cases segments with
  | nil => simp
  | cons segment segments => simp [Segment.bytes]

namespace SweepState

/-- Nothing was written if and only if nothing survives for certain. -/
theorem Reaches.written_isEmpty_iff {src : Bytes} {state : SweepState}
    {rest : Bytes} (hreach : Reaches src state rest) :
    state.written.isEmpty = true ↔
      surviving true state.segments.toList = [] := by
  rw [← segmentsText_eq_nil_iff, ← hreach.writesSurviving.written]
  simp

theorem MeetsCall.spelledStatement {src tail ended beyond : Bytes}
    {state : SweepState} {b : UInt8} {method : Method} {opening closing : Nat}
    (hrest : src.drop state.offset = b :: tail)
    (hcall : state.MeetsCall (b :: tail) method opening)
    (hfound : closingFrom src opening openParen closeParen = .found closing)
    (hafter : src.drop (closing + 1) = ended ++ beyond)
    (hended : SpellsEnding ended) :
    DeletedStatement.Spelled src
      ⟨state.callHere method, closing + 1 + ended.length⟩ opening closing := by
  obtain ⟨gap, after, hgap, hspelled, hopening⟩ := hcall.spelled
  exact {
    head := ⟨gap, after, hgap, hrest.trans hspelled, hopening⟩
    name := (hcall.naming hrest).1
    closed := hfound
    closingByte := (closingFrom_found hfound).2
    ending := ⟨ended, beyond, hafter, hended, rfl⟩ }

theorem Reaches.deletesStatement {src : Bytes} {state : SweepState}
    {rest : Bytes} (hreach : Reaches src state rest)
    {before after : List Segment} {segment : Segment}
    {statement : DeletedStatement}
    (hsegments : state.segments.toList = before ++ segment :: after)
    (hstatement : segment.statement? = some statement) :
    DeletesStatement src before segment statement := by
  obtain ⟨earlier, b, tail, more, hearlier, hbefore, hsegment, hnext, hcut⟩ :=
    hreach.cut_at hsegments
  have hlength : segment.bytes.length = more + 1 := by
    rw [hsegment]
    exact length_bytes_of_cut hcut
  have hoffset : earlier.offset = (segmentsText before).length := by
    rw [hearlier.offset_eq, hbefore]
  obtain ⟨call, endsLine, terminator, hkind, rfl⟩ :=
    Segment.exists_kind_of_statement? hstatement
  rw [hkind] at hnext
  cases hnext with
  | @removed method opening closing ending hword hcall hfound hjudge =>
      have hle := (closingFrom_found hfound).1
      have hlt := hcall.offset_lt
      obtain ⟨ended, terminator, beyond, hafter, hended, hendedLength,
        hline, -, -⟩ := ending_spelled hjudge
      have hspelled := hcall.spelledStatement hearlier.drop_offset.1 hfound
        hafter hended
      have hends : segment.endsLine = ending.endsLine := by
        simp only [Segment.endsLine, hkind]
      have hstop : earlier.offset +
          (segment.bytes.length - earlier.terminatorAfter ending
            (src.drop (closing + 1))) = closing + 1 + ended.length := by
        omega
      have hdrop : src.drop (closing + 1 + ended.length) =
          terminator ++ beyond := by
        rw [← List.drop_drop, hafter, List.drop_left]
      have hterminator : earlier.terminatorAfter ending
          (src.drop (closing + 1)) =
          if ending.endsLine = true ∧ surviving true before = [] then
            terminatorLength (src.drop (closing + 1 + ended.length))
          else 0 := by
        simp only [terminatorAfter, hearlier.written_isEmpty_iff, hbefore,
          List.drop_drop, hendedLength]
      simp only [callHere] at hspelled ⊢
      rw [hstop]
      refine ⟨hoffset, by simp only; omega, ⟨opening, closing, hspelled⟩, ?_, ?_⟩
      · rw [DeletedStatement.endsLine_iff, hdrop, hends, hline]
      · simp only [hends]
        rw [← hterminator]
        omega

end SweepState
end LogSweep
