import LogSweep.Proofs.SweepHistory
import LogSweep.Proofs.SweepTotality

/-!
# The states in which calls are met

Each call of a report was met in one state of the sweep, and what became of it
was decided there.  So a statement about all deleted calls is one about the
states of `DeletesCall`, and a call that is met in some state is in the report.
-/

namespace LogSweep

open Byte Bytes SweepState

/-- The sweep of `src` comes to the state `state`, with `rest` still to read,
and deletes the call at the start of `rest`, whose parentheses are at `opening`
and `closing`. -/
structure DeletesCall (src : Bytes) (state : SweepState) (rest : Bytes)
    (call : Call) (opening closing : Nat) (ending : Ending) : Prop where
  reaches : Reaches src state rest
  call_eq : call = state.callHere call.method
  meets : state.MeetsCall rest call.method opening
  closed : closingFrom src opening openParen closeParen = .found closing
  judged :
    judge state.last state.role state.onNewLine (src.drop (closing + 1)) =
      .ok ending

/-- This segment deletes the call. -/
def Segment.Deletes (segment : Segment) (call : Call) : Prop :=
  ∃ endsLine terminator, segment.kind = .removed call endsLine terminator

theorem Segment.finding?_eq_removed_iff {segment : Segment} {call : Call} :
    segment.finding? = some (.removed call) ↔ segment.Deletes call := by
  rw [finding?, Deletes]
  cases segment.kind <;> simp [eq_comm]

namespace SweepState

section

variable {src : Bytes} {final : SweepState} {rest : Bytes}
  {before after : List Segment} {segment : Segment} {call : Call}

/-- The state in which a segment deletes its call. -/
theorem Reaches.exists_deletesCall (hreach : Reaches src final rest)
    (hsplit : final.segments.toList = before ++ segment :: after)
    (hdeletes : segment.Deletes call) :
    ∃ state met opening closing ending,
      DeletesCall src state met call opening closing ending ∧
      state.segments.toList = before ∧
      segment.bytes.length = closing - state.offset + ending.length +
        state.terminatorAfter ending (src.drop (closing + 1)) + 1 := by
  obtain ⟨state, b, tail, more, hearlier, hbefore, hsegment, hnext, hcut⟩ :=
    hreach.cut_at hsplit
  have hlength : segment.bytes.length = more + 1 := by
    rw [hsegment]
    exact length_bytes_of_cut hcut
  obtain ⟨endsLine, terminator, hkind⟩ := hdeletes
  rw [hkind] at hnext
  cases hnext with
  | @removed method opening closing ending hword hcall hfound hjudge =>
      exact ⟨state, b :: tail, opening, closing, ending,
        ⟨hearlier, rfl, hcall, hfound, hjudge⟩, hbefore, hlength⟩

end

/-- A step of a text ends up in the segments of the whole sweep. -/
theorem Reaches.exists_later {text : String} {state final : SweepState}
    {b : UInt8} {tail : Bytes} {kind : Segment.Kind} {more : Nat}
    (hreach : Reaches (ofString text) state (b :: tail))
    (hsweep : sweep (ofString text) = .ok final)
    (hsegment : NextSegment (ofString text) state b tail kind more) :
    ∃ later, final.segments.toList =
      state.segments.toList ++ ⟨kind, b, tail.take more⟩ :: later := by
  have hrest := hreach.drop_offset.1
  exact hreach.exists_later_of_step hsweep (hsegment.next_eq hrest)
    (hreach.readsText.checkCut hrest hsegment)

/-- What the next segment is where a call is met. -/
theorem MeetsCall.exists_nextSegment {src : Bytes} {state : SweepState}
    {b : UInt8} {tail : Bytes} {method : Method} {opening : Nat}
    (hrest : src.drop state.offset = b :: tail)
    (hcall : state.MeetsCall (b :: tail) method opening) :
    (closingFrom src opening openParen closeParen = .unclosed ∧
      NextSegment src state b tail (.kept (state.callHere method) .unclosed)
        (runLength isWord tail)) ∨
    (∃ closing, closingFrom src opening openParen closeParen = .found closing ∧
      ((∃ obstacle,
          judge state.last state.role state.onNewLine
            (src.drop (closing + 1)) = .error obstacle ∧
          NextSegment src state b tail (.kept (state.callHere method) obstacle)
            (runLength isWord tail)) ∨
        ∃ ending terminator more,
          judge state.last state.role state.onNewLine
            (src.drop (closing + 1)) = .ok ending ∧
          NextSegment src state b tail
            (.removed (state.callHere method) ending.endsLine terminator)
            more)) := by
  obtain ⟨-, hword, -⟩ := receiver_of_meetsCall hcall
  obtain ⟨partner, -, hsearch⟩ := hcall.closingOf hrest
  cases partner with
  | none => exact Or.inl ⟨hsearch, .unclosed hword hcall hsearch⟩
  | some closing =>
      refine Or.inr ⟨closing, hsearch, ?_⟩
      cases hjudge : judge state.last state.role state.onNewLine
          (src.drop (closing + 1)) with
      | error obstacle =>
          exact Or.inl ⟨obstacle, rfl, .refused hword hcall hsearch hjudge⟩
      | ok ending =>
          exact Or.inr ⟨ending, _, _, rfl, .removed hword hcall hsearch hjudge⟩

end SweepState

/-! ## Reports -/

section

variable {text : String} {report : Report} {final : SweepState} {call : Call}

theorem mem_removed_iff
    (hfindings : report.findings =
      final.segments.toList.filterMap Segment.finding?) :
    call ∈ report.removed ↔
      ∃ before segment after,
        final.segments.toList = before ++ segment :: after ∧
          segment.Deletes call := by
  have hfinding : ∀ finding : Finding,
      finding.removed? = some call ↔ finding = .removed call := by
    intro finding
    cases finding <;> simp [Finding.removed?]
  rw [Report.removed, hfindings, List.mem_filterMap]
  simp only [hfinding, exists_eq_right, List.mem_filterMap,
    Segment.finding?_eq_removed_iff]
  constructor
  · rintro ⟨segment, hmem, hdeletes⟩
    obtain ⟨before, after, hsplit⟩ := List.append_of_mem hmem
    exact ⟨before, segment, after, hsplit, hdeletes⟩
  · rintro ⟨before, segment, after, hsplit, hdeletes⟩
    exact ⟨segment, by simp [hsplit], hdeletes⟩

theorem mem_kept_of_segment {before after : List Segment} {segment : Segment}
    {obstacle : Obstacle}
    (hfindings : report.findings =
      final.segments.toList.filterMap Segment.finding?)
    (hsplit : final.segments.toList = before ++ segment :: after)
    (hkind : segment.kind = .kept call obstacle) :
    (call, obstacle) ∈ report.kept := by
  have hfinding : segment.finding? = some (.kept call obstacle) := by
    simp [Segment.finding?, hkind]
  rw [Report.kept, hfindings, List.mem_filterMap]
  refine ⟨.kept call obstacle, List.mem_filterMap.mpr ⟨segment, ?_, hfinding⟩,
    rfl⟩
  simp [hsplit]

/-- Every call that a report names as removed was deleted in some state. -/
theorem exists_deletesCall (hreport : sweepText text = .ok report)
    (hmem : call ∈ report.removed) :
    ∃ state rest opening closing ending,
      DeletesCall (ofString text) state rest call opening closing ending := by
  obtain ⟨final, report', -, hreach, hreport', -, hfindings⟩ :=
    exists_sweepText text
  obtain rfl := Except.ok.inj (hreport.symm.trans hreport')
  obtain ⟨before, segment, after, hsplit, hdeletes⟩ :=
    (mem_removed_iff hfindings).mp hmem
  obtain ⟨state, rest, opening, closing, ending, hcall, -⟩ :=
    hreach.exists_deletesCall hsplit hdeletes
  exact ⟨state, rest, opening, closing, ending, hcall⟩

end

end LogSweep
