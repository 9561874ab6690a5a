import LogSweep.Proofs.DeletedCall
import LogSweep.Proofs.StatementDeletion

/-!
# What a report says about the calls of a text

Each call that a sweep meets has one entry in its report, and the report has no
others.  The entries come in the order of the text, and none of them lies in a
statement that another one deletes.  A call that is kept is left as it is
spelled, up to its opening parenthesis: no byte of it can be the start of a
deleted statement, and it does not lie in one either.
-/

namespace LogSweep

open Byte Bytes SweepState

/-- The sweep of `src` meets this call, with its parenthesis at `opening`. -/
def IsMet (src : Bytes) (call : Call) (opening : Nat) : Prop :=
  ∃ state rest, Reaches src state rest ∧
    state.MeetsCall rest call.method opening ∧ call = state.callHere call.method

/-- All calls that the report has an entry for: the removed ones, then those
that were kept. -/
def Report.entries (report : Report) : List Call :=
  report.removed ++ report.kept.map Prod.fst

/-- What a report says about the calls of `src`, of which the bytes in `deleted`
are gone, the statements among them. -/
structure ReportsCalls (src : Bytes) (statements : List DeletedStatement)
    (deleted : Finset Nat) (report : Report) : Prop where
  /-- A call that is met has one entry, and that is of this call. -/
  oneEntry :
    ∀ call opening, IsMet src call opening →
      report.entries.filter (fun entry => entry.start = call.start) = [call]
  met : ∀ call ∈ report.entries, ∃ opening, IsMet src call opening
  increasing :
    (report.findings.map fun finding => finding.call.start).Pairwise (· < ·)
  line :
    ∀ call ∈ report.entries,
      call.line = (src.take call.start).count newline + 1
  apart :
    ∀ call ∈ report.entries, ∀ statement ∈ statements,
      statement.Covers call.start → statement.call = call
  /-- From its receiver up to its opening parenthesis a kept call is left. -/
  left :
    ∀ call obstacle, (call, obstacle) ∈ report.kept →
      ∃ opening, IsMet src call opening ∧
        ∀ x, call.start ≤ x → x ≤ opening → x ∉ deleted

/-! ## Entries and findings -/

theorem Report.entries_perm (report : Report) :
    report.entries.Perm (report.findings.map Finding.call) := by
  unfold entries removed kept
  induction report.findings with
  | nil => exact List.Perm.refl _
  | cons finding findings ih =>
      cases finding with
      | removed call => exact ih.cons call
      | kept call obstacle =>
          simp only [List.filterMap_cons, Finding.removed?, Finding.kept?,
            List.map_cons, Finding.call]
          exact List.perm_middle.trans (ih.cons call)

theorem Report.mem_entries_iff {report : Report} {call : Call} :
    call ∈ report.entries ↔ ∃ finding ∈ report.findings, finding.call = call := by
  rw [report.entries_perm.mem_iff, List.mem_map]

theorem Report.mem_kept_iff {report : Report} {call : Call} {obstacle : Obstacle} :
    (call, obstacle) ∈ report.kept ↔ .kept call obstacle ∈ report.findings := by
  have hfinding : ∀ finding : Finding,
      finding.kept? = some (call, obstacle) ↔ finding = .kept call obstacle := by
    intro finding
    cases finding <;> simp [Finding.kept?]
  rw [Report.kept, List.mem_filterMap]
  simp only [hfinding, exists_eq_right]

theorem Report.mem_entries_of_mem_kept {report : Report} {call : Call}
    {obstacle : Obstacle} (hkept : (call, obstacle) ∈ report.kept) :
    call ∈ report.entries :=
  List.mem_append_right _ (List.mem_map.mpr ⟨_, hkept, rfl⟩)

/-- Of calls with growing starts only one starts where it does. -/
theorem filter_start_eq {calls : List Call} {call : Call}
    (hincreasing : (calls.map Call.start).Pairwise (· < ·))
    (hmem : call ∈ calls) :
    calls.filter (fun entry => entry.start = call.start) = [call] := by
  obtain ⟨before, after, rfl⟩ := List.append_of_mem hmem
  rw [List.map_append, List.map_cons, List.pairwise_append,
    List.pairwise_cons] at hincreasing
  obtain ⟨-, ⟨hafter, -⟩, hbefore⟩ := hincreasing
  have hnoneBefore : before.filter (fun entry => entry.start = call.start) = [] := by
    rw [List.filter_eq_nil_iff]
    intro entry hentry
    have hlt := hbefore _ (List.mem_map_of_mem hentry) _ List.mem_cons_self
    simpa using hlt.ne
  have hnoneAfter : after.filter (fun entry => entry.start = call.start) = [] := by
    rw [List.filter_eq_nil_iff]
    intro entry hentry
    have hlt := hafter _ (List.mem_map_of_mem hentry)
    simpa using hlt.ne'
  rw [List.filter_append, List.filter_cons_of_pos (by simp), hnoneBefore,
    hnoneAfter, List.nil_append]

/-! ## The segment of a finding -/

namespace SweepState

theorem NextSegment.finding?_of_meetsCall {src tail : Bytes} {state : SweepState}
    {b : UInt8} {method : Method} {opening : Nat}
    (hrest : src.drop state.offset = b :: tail)
    (hcall : state.MeetsCall (b :: tail) method opening) :
    ∃ kind more finding, NextSegment src state b tail kind more ∧
      (Segment.mk kind b (tail.take more)).finding? = some finding ∧
      finding.call = state.callHere method := by
  rcases hcall.exists_nextSegment hrest with
    ⟨-, hnext⟩ | ⟨closing, -, ⟨obstacle, -, hnext⟩ | ⟨ending, _, _, -, hnext⟩⟩
  · exact ⟨_, _, _, hnext, rfl, rfl⟩
  · exact ⟨_, _, _, hnext, rfl, rfl⟩
  · exact ⟨_, _, _, hnext, rfl, rfl⟩

theorem NextSegment.meetsCall_of_finding? {src tail : Bytes} {state : SweepState}
    {b : UInt8} {kind : Segment.Kind} {more : Nat} {finding : Finding}
    (hsegment : NextSegment src state b tail kind more)
    (hfinding : (Segment.mk kind b (tail.take more)).finding? = some finding) :
    ∃ opening, state.MeetsCall (b :: tail) finding.call.method opening ∧
      finding.call = state.callHere finding.call.method := by
  cases hsegment with
  | unclosed _ hcall =>
      obtain rfl := Option.some.inj hfinding
      exact ⟨_, hcall, rfl⟩
  | refused _ hcall =>
      obtain rfl := Option.some.inj hfinding
      exact ⟨_, hcall, rfl⟩
  | removed _ hcall =>
      obtain rfl := Option.some.inj hfinding
      exact ⟨_, hcall, rfl⟩
  | literal => simp [Segment.finding?] at hfinding
  | comment => simp [Segment.finding?] at hfinding
  | space => simp [Segment.finding?] at hfinding
  | punctuation => simp [Segment.finding?] at hfinding
  | word => simp [Segment.finding?] at hfinding

end SweepState

section

variable {text : String} {final : SweepState} {finding : Finding}

/-- A call that is met is found. -/
theorem IsMet.exists_finding {call : Call} {opening : Nat}
    (hmet : IsMet (ofString text) call opening)
    (hsweep : sweep (ofString text) = .ok final) :
    ∃ finding ∈ final.segments.toList.filterMap Segment.finding?,
      finding.call = call := by
  obtain ⟨state, rest, hreach, hcall, hhere⟩ := hmet
  obtain ⟨b, tail, rfl⟩ := hcall.exists_cons
  obtain ⟨kind, more, finding, hnext, hfinding, hfound⟩ :=
    NextSegment.finding?_of_meetsCall hreach.drop_offset.1 hcall
  obtain ⟨later, hlater⟩ := hreach.exists_later hsweep hnext
  refine ⟨finding, List.mem_filterMap.mpr ⟨_, ?_, hfinding⟩,
    hfound.trans hhere.symm⟩
  rw [hlater]
  exact List.mem_append_right _ List.mem_cons_self

/-- The line on which a call is met. -/
theorem IsMet.line_eq {src : Bytes} {call : Call} {opening : Nat}
    (hmet : IsMet src call opening) :
    call.line = (src.take call.start).count newline + 1 := by
  obtain ⟨state, rest, hreach, -, hhere⟩ := hmet
  rw [hhere]
  exact hreach.line_eq

/-- A finding comes from a segment that starts with its call. -/
theorem SweepState.Reaches.exists_segment_of_finding
    (hreach : Reaches (ofString text) final [])
    (hmem : finding ∈ final.segments.toList.filterMap Segment.finding?) :
    ∃ before segment after opening,
      final.segments.toList = before ++ segment :: after ∧
        segment.finding? = some finding ∧
        finding.call.start = (segmentsText before).length ∧
        IsMet (ofString text) finding.call opening := by
  obtain ⟨segment, hsegment, hfinding⟩ := List.mem_filterMap.mp hmem
  obtain ⟨before, after, hsplit⟩ := List.append_of_mem hsegment
  obtain ⟨earlier, b, tail, more, hearlier, hbefore, hcut, hnext, -⟩ :=
    hreach.cut_at hsplit
  rw [hcut] at hfinding
  obtain ⟨opening, hcall, hhere⟩ := hnext.meetsCall_of_finding? hfinding
  refine ⟨before, segment, after, opening, hsplit, hcut ▸ hfinding, ?_,
    earlier, b :: tail, hearlier, hcall, hhere⟩
  rw [hnext.finding? hfinding, hearlier.offset_eq, hbefore]

/-- A finding in a deleted statement is that of the statement. -/
theorem SweepState.Reaches.finding_of_covers {statement : DeletedStatement}
    (hreach : Reaches (ofString text) final [])
    (hmem : finding ∈ final.segments.toList.filterMap Segment.finding?)
    (hdeleted : statement ∈ deletedStatements final.segments.toList)
    (hcovers : statement.Covers finding.call.start) :
    finding = .removed statement.call := by
  obtain ⟨before, segment, after, -, hsplit, hfinding, hstart, -⟩ :=
    hreach.exists_segment_of_finding hmem
  obtain ⟨before', owner, after', hsplit', hstatement, hdeletes⟩ :=
    hreach.exists_deletesStatement hdeleted
  have hpos := segment.length_bytes_pos
  have hstop := hdeletes.stop_eq
  obtain ⟨hfirst, hlast⟩ := hcovers
  obtain ⟨-, rfl, -⟩ := SegmentAt.unique (x := finding.call.start)
    ⟨hsplit, hstart.ge, by omega⟩
    ⟨hsplit', hdeletes.start_eq ▸ hfirst, by omega⟩
  obtain ⟨call, endsLine, terminator, hkind, rfl⟩ :=
    Segment.exists_kind_of_statement? hstatement
  rw [Segment.finding?, hkind] at hfinding
  exact (Option.some.inj hfinding).symm

end

/-! ## Calls that are kept -/

theorem ofString_receiver_eq_cons :
    ofString receiver = 99 :: (ofString receiver).tail := by
  decide

/-- The receiver does not start again behind its first byte, up to the
parenthesis of the call. -/
theorem IsMet.getElem?_ne_head {src : Bytes} {call : Call} {opening x : Nat}
    (hmet : IsMet src call opening) (hstart : call.start < x)
    (hopening : x ≤ opening) : src[x]? ≠ (ofString receiver).head? := by
  obtain ⟨state, rest, hreach, hcall, hhere⟩ := hmet
  obtain ⟨gap, after, hgap, hspelled, hopened⟩ := hcall.spelled
  have hoffset : call.start = state.offset := by
    rw [hhere]
    rfl
  set behind := (ofString receiver).tail ++
    (dot :: ofString call.method.name ++ gap ++ [openParen]) with hbehind
  have hreceiver := ofString_receiver_eq_cons
  have hlength := congrArg List.length hreceiver
  have hsplit : src.drop (call.start + 1) = behind ++ after := by
    rw [← List.drop_drop, hoffset, hreach.drop_offset.1, hspelled, hreceiver,
      hbehind]
    simp
  have hlt : x - (call.start + 1) < behind.length := by
    rw [hbehind]
    simp only [List.length_append, List.length_cons, List.length_nil]
      at hopened hlength ⊢
    omega
  have hget : src[x]? = behind[x - (call.start + 1)]? := by
    rw [← List.getElem?_append_left hlt, ← hsplit, List.getElem?_drop,
      Nat.add_sub_cancel' (by omega)]
  intro hhead
  have hmem := List.mem_of_getElem? (hget.symm.trans (hhead.trans
    (congrArg List.head? hreceiver)))
  rw [hbehind] at hmem
  simp only [List.mem_append, List.mem_cons, List.not_mem_nil, or_false] at hmem
  rcases hmem with hmem | ((hmem | hmem) | hmem) | hmem
  · exact absurd hmem (by decide)
  · exact absurd hmem (by decide)
  · cases hname : call.method <;> rw [hname] at hmem <;>
      exact absurd hmem (by decide)
  · exact absurd (hgap 99 hmem) (by decide)
  · exact absurd hmem (by decide)

theorem getElem?_of_drop_eq_receiver {src after : Bytes} {start : Nat}
    (hspelled : src.drop start = ofString receiver ++ after) :
    src[start]? = (ofString receiver).head? := by
  rw [← List.head?_drop, hspelled, ofString_receiver_eq_cons]
  rfl

/-- A call starts with its receiver, in front of its parenthesis. -/
theorem IsMet.getElem?_start {src : Bytes} {call : Call} {opening : Nat}
    (hmet : IsMet src call opening) :
    src[call.start]? = (ofString receiver).head? ∧
      src[opening]? = some openParen ∧ call.start < opening := by
  obtain ⟨state, rest, hreach, hcall, hhere⟩ := hmet
  have hrest := hreach.drop_offset.1
  obtain ⟨gap, after, -, hspelled, -⟩ := hcall.spelled
  rw [hhere]
  exact ⟨getElem?_of_drop_eq_receiver (hrest.trans hspelled),
    hcall.openParen_at hrest, hcall.offset_lt⟩

theorem DeletedStatement.Spelled.getElem?_start {src : Bytes}
    {statement : DeletedStatement} {opening closing : Nat}
    (hspelled : statement.Spelled src opening closing) :
    src[statement.call.start]? = (ofString receiver).head? := by
  obtain ⟨gap, after, -, hhead, -⟩ := hspelled.head
  exact getElem?_of_drop_eq_receiver hhead

section

variable {src : Bytes} {statements : List DeletedStatement}
  {deleted : Finset Nat} {call : Call} {opening x : Nat}

/-- No deleted statement starts within the spelling of a call behind its first
byte, so one that covers a byte of it covers its receiver. -/
theorem Deletion.not_covers (hdeletion : Deletion src statements deleted)
    (hmet : IsMet src call opening)
    (hapart : ∀ statement ∈ statements, ¬ statement.Covers call.start)
    (hstart : call.start ≤ x) (hopening : x ≤ opening) :
    ∀ statement ∈ statements, ¬ statement.Covers x := by
  rintro statement hmem ⟨hle, hlt⟩
  obtain ⟨_, _, hspelled⟩ := hdeletion.spelled statement hmem
  by_cases hbehind : call.start < statement.call.start
  · exact hmet.getElem?_ne_head hbehind (by omega) hspelled.getElem?_start
  · exact hapart statement hmem ⟨by omega, by omega⟩

theorem Deletion.start_notMem (hdeletion : Deletion src statements deleted)
    (hmet : IsMet src call opening)
    (hapart : ∀ statement ∈ statements, ¬ statement.Covers call.start) :
    call.start ∉ deleted := by
  intro hdeleted
  obtain ⟨b, hbyte, hspace⟩ := hdeletion.others _ hdeleted hapart
  obtain rfl := Option.some.inj (hmet.getElem?_start.1.symm.trans hbyte)
  exact absurd hspace (by decide)

/-- A call that lies in no deleted statement is left, from its receiver up to
its parenthesis. -/
theorem Deletion.notMem_of_isMet (hdeletion : Deletion src statements deleted)
    (hmet : IsMet src call opening)
    (hapart : ∀ statement ∈ statements, ¬ statement.Covers call.start)
    (hstart : call.start ≤ x) (hopening : x ≤ opening) : x ∉ deleted := by
  have hfirst := hdeletion.start_notMem hmet hapart
  obtain ⟨-, hparen, -⟩ := hmet.getElem?_start
  intro hdeleted
  rcases (hdeletion.mem_iff x).mp hdeleted with
    ⟨statement, hmem, hcovers⟩ | ⟨statement, hmem, -, hlt, hloose⟩ |
      ⟨statement, -, -, hterminator, hall⟩
  · exact hdeletion.not_covers hmet hapart hstart hopening statement hmem hcovers
  · -- white space leads to a deleted statement only past the parenthesis
    obtain ⟨_, _, hspelled⟩ := hdeletion.spelled statement hmem
    by_cases hbehind : statement.call.start ≤ opening
    · exact hmet.getElem?_ne_head (by omega) hbehind hspelled.getElem?_start
    · rcases hloose opening hopening (by omega) with
        ⟨other, hother, hcovers⟩ | ⟨b, hbyte, hspace, -⟩
      · exact hdeletion.not_covers hmet hapart (by omega) le_rfl other hother
          hcovers
      · obtain rfl := Option.some.inj (hparen.symm.trans hbyte)
        exact absurd hspace (by decide)
  · -- a terminator that is deleted has nothing left in front of it
    obtain ⟨hle, hlt⟩ := isTerminatorAt_iff.mp hterminator
    by_cases hbefore : call.start < statement.stop
    · exact hfirst (hall _ hbefore)
    · have hspace : ∀ y, statement.stop ≤ y → y ≤ x →
          IsTerminatorAt src statement.stop y :=
        fun y hy hyx => isTerminatorAt_iff.mpr ⟨hy, by omega⟩
      obtain ⟨b, hbyte, hwhite⟩ :=
        (hspace call.start (by omega) hstart).exists_whitespace
      obtain rfl := Option.some.inj (hmet.getElem?_start.1.symm.trans hbyte)
      exact absurd hwhite (by decide)

end

/-! ## The report -/

/-- The report on a text is faithful: it has one entry for each call that is
met, in the order of the text and with its line, and a call that it names as
kept is left in the output as it is spelled, up to its opening parenthesis. -/
theorem sweepText_reports_calls (text : String) :
    ∃ report statements deleted, sweepText text = .ok report ∧
      statements.map DeletedStatement.call = report.removed ∧
      Deletion (ofString text) statements deleted ∧
      ofString report.text = (ofString text).without deleted ∧
      ReportsCalls (ofString text) statements deleted report := by
  obtain ⟨final, report, hsweep, hreach, hreport, htext, hfindings⟩ :=
    exists_sweepText text
  have hdeletion := hreach.deletion hsweep
  have hincreasing : (report.findings.map
      fun finding => finding.call.start).Pairwise (· < ·) := by
    have horder := hreach.callsInOrder.increasing
    rwa [calls, ← hfindings, List.map_map] at horder
  have hmet : ∀ call ∈ report.entries, ∃ opening,
      IsMet (ofString text) call opening := by
    intro call hcall
    obtain ⟨finding, hmem, rfl⟩ := Report.mem_entries_iff.mp hcall
    obtain ⟨-, -, -, opening, -, -, -, hmet⟩ :=
      hreach.exists_segment_of_finding (hfindings ▸ hmem)
    exact ⟨opening, hmet⟩
  refine ⟨report, deletedStatements final.segments.toList,
    deletedOffsets final.segments.toList, hreport, ?_, hdeletion, ?_, ?_⟩
  · rw [map_call_deletedStatements, Report.removed, hfindings]
  · rw [htext, hreach.writesSurviving.output, ← without_deletedOffsets]
    congr 1
    simpa using hreach.src_eq.symm
  · exact {
      oneEntry := by
        intro call opening hcall
        obtain ⟨finding, hmem, rfl⟩ := hcall.exists_finding hsweep
        rw [← hfindings] at hmem
        have hone := filter_start_eq (by rwa [List.map_map])
          (List.mem_map_of_mem (f := Finding.call) hmem)
        exact List.perm_singleton.mp (hone ▸ report.entries_perm.filter _)
      met := hmet
      increasing := hincreasing
      line := by
        intro call hcall
        obtain ⟨opening, hmet⟩ := hmet call hcall
        exact hmet.line_eq
      apart := by
        intro call hcall statement hmem hcovers
        obtain ⟨finding, hfinding, rfl⟩ := Report.mem_entries_iff.mp hcall
        rw [hreach.finding_of_covers (hfindings ▸ hfinding) hmem hcovers]
        rfl
      left := by
        intro call obstacle hkept
        obtain ⟨opening, hcall⟩ :=
          hmet call (Report.mem_entries_of_mem_kept hkept)
        have hfinding := Report.mem_kept_iff.mp hkept
        rw [hfindings] at hfinding
        refine ⟨opening, hcall, fun x hstart hopening =>
          hdeletion.notMem_of_isMet hcall ?_ hstart hopening⟩
        intro statement hmem hcovers
        have hremoved := hreach.finding_of_covers hfinding hmem hcovers
        cases hremoved }

end LogSweep
