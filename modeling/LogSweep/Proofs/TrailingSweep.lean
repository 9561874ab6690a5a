import LogSweep.Proofs.SweepTotality

/-!
# A sweep behind another text

Behind a semicolon a statement can start as at the start of a text, and so can a
regex; if the output leaves no parenthesis open either, the sweep goes on as if
the text behind stood alone.  What differs is that something was written before,
and that white space is held back; neither is asked for once the text behind has
written something itself.
-/

namespace LogSweep

open Byte Bytes

/-! ## Behind another text -/

def CodeByte.behind (front : Bytes) (c : CodeByte) : CodeByte :=
  { c with offset := front.length + c.offset }

/-- What a search in the text behind finds. -/
def Closing.behind (front : Bytes) : Closing → Closing
  | .found offset => .found (front.length + offset)
  | .unclosed => .unclosed
  | .unopened => .unopened

/-- The call as one of the text that starts with `front`. -/
def Call.behind (front : Bytes) (call : Call) : Call :=
  { call with
    start := front.length + call.start
    line := call.line + front.count newline }

def Finding.behind (front : Bytes) : Finding → Finding
  | .removed call => .removed (call.behind front)
  | .kept call obstacle => .kept (call.behind front) obstacle

namespace Segment

def Kind.behind (front : Bytes) : Kind → Kind
  | .kept call obstacle => .kept (call.behind front) obstacle
  | .removed call endsLine terminator => .removed (call.behind front) endsLine terminator
  | kind => kind

def behind (front : Bytes) (segment : Segment) : Segment :=
  { segment with kind := segment.kind.behind front }

/-- Whether the segment writes something at once. -/
def Kind.IsWritten : Kind → Prop
  | .space => False
  | .removed _ _ _ => False
  | _ => True

@[simp] theorem bytes_behind (front : Bytes) (segment : Segment) :
    (segment.behind front).bytes = segment.bytes :=
  rfl

theorem finding?_behind (front : Bytes) (segment : Segment) :
    (segment.behind front).finding? = segment.finding?.map (Finding.behind front) := by
  obtain ⟨kind, b, others⟩ := segment
  cases kind <;> rfl

end Segment

theorem codeAfter_behind (front : Bytes) (prev : Option UInt8) (offset : Nat)
    (rest : Bytes) :
    codeAfter prev (front.length + offset) rest =
      (codeAfter prev offset rest).map (CodeByte.behind front) := by
  fun_induction codeAfter prev offset rest with
  | case1 => rw [codeAfter, List.map_nil]
  | case2 prev offset b tail literal hopened ih =>
      rw [codeAfter, hopened, ← ih, ← Nat.add_assoc]
  | case3 prev offset b tail hopened ih =>
      rw [codeAfter, hopened, List.map_cons, ← ih, Nat.add_assoc]
      rfl

theorem closingIn_behind (front : Bytes) (opening closing : UInt8) (depth : Nat)
    (code : List CodeByte) :
    closingIn opening closing depth (code.map (CodeByte.behind front)) =
      (closingIn opening closing depth code).behind front := by
  induction code generalizing depth with
  | nil => rfl
  | cons c code ih =>
      obtain ⟨offset, b⟩ := c
      simp only [List.map_cons, CodeByte.behind, closingIn]
      split_ifs with hopen hclose
      · exact ih (depth + 1)
      · obtain _ | _ | depth := depth
        · rfl
        · rfl
        · exact ih (depth + 1)
      · exact ih depth

theorem closingFrom_behind (front more : Bytes) (start : Nat) (opening closing : UInt8) :
    closingFrom (front ++ more) (front.length + start) opening closing =
      (closingFrom more start opening closing).behind front := by
  rw [closingFrom, closingFrom, codeBytes_eq_codeAfter, codeBytes_eq_codeAfter,
    List.drop_length_add_append, codeAfter_behind, closingIn_behind]

/-- Of the last code byte only matters whether a regex can follow it. -/
theorem Literal.opened?_of_admitsRegex {prev prev' : Option UInt8}
    (hprev : admitsRegex prev = admitsRegex prev') (b : UInt8) (tail : Bytes) :
    Literal.opened? prev b tail = Literal.opened? prev' b tail := by
  have hslash : Literal.bySlash? prev tail = Literal.bySlash? prev' tail := by
    cases tail with
    | nil => rfl
    | cons b rest => rw [bySlash?, bySlash?, hprev]
  rw [opened?, opened?, plain?, plain?, hslash]

namespace SweepState

/-! ## The same step -/

/-- What `joined` knows, standing behind a text whose sweep ended in the state
`before`, where the sweep of the text behind has come to `state`.  What was
written is told apart from the white space held back only where the text behind
has written something itself. -/
structure KnowsAlike (before state joined : SweepState) : Prop where
  output : joined.output = before.output ++ state.output
  last : joined.last = some (state.last.getD semicolon)
  role : joined.role = state.role
  heads : joined.heads = state.heads
  pending : state.written ≠ #[] → joined.pending = state.pending
  writtenNewline : state.last ≠ none → joined.writtenNewline = state.writtenNewline
  /-- No token comes before something was written. -/
  begun : state.last ≠ none → state.written ≠ #[]

/-- Where `joined` stands in the text that starts with `front`. -/
structure Trails (front : Bytes) (before state joined : SweepState) : Prop
    extends KnowsAlike before state joined where
  segments :
    joined.segments.toList =
      before.segments.toList ++ state.segments.toList.map (Segment.behind front)
  offset : joined.offset = front.length + state.offset
  line : joined.line = state.line + front.count newline

section

variable {before state joined : SweepState}

theorem KnowsAlike.written (halike : KnowsAlike before state joined)
    (hwritten : state.written ≠ #[]) :
    joined.written.toList = before.output ++ state.written.toList := by
  have houtput : joined.written.toList ++ joined.pending =
      before.output ++ (state.written.toList ++ state.pending) :=
    halike.output
  rw [halike.pending hwritten, ← List.append_assoc] at houtput
  exact List.append_cancel_right houtput

theorem KnowsAlike.onNewLine (halike : KnowsAlike before state joined)
    (hlast : state.last ≠ none) : joined.onNewLine = state.onNewLine := by
  rw [SweepState.onNewLine, SweepState.onNewLine, halike.writtenNewline hlast,
    halike.pending (halike.begun hlast)]

theorem KnowsAlike.opened? (halike : KnowsAlike before state joined) (b : UInt8)
    (tail : Bytes) :
    Literal.opened? joined.last b tail = Literal.opened? state.last b tail := by
  refine Literal.opened?_of_admitsRegex ?_ b tail
  rw [halike.last]
  cases state.last <;> rfl

theorem KnowsAlike.judge (halike : KnowsAlike before state joined) (rest : Bytes) :
    judge joined.last joined.role joined.onNewLine rest =
      judge state.last state.role state.onNewLine rest := by
  have hstarts : startsStatement joined.last joined.role joined.onNewLine =
      startsStatement state.last state.role state.onNewLine := by
    rw [halike.last, halike.role]
    cases hlast : state.last with
    | none => rfl
    | some b =>
        rw [halike.onNewLine (by simp [hlast])]
        rfl
  rw [LogSweep.judge, LogSweep.judge, hstarts, halike.role]

theorem KnowsAlike.doublesSign (halike : KnowsAlike before state joined) (b : UInt8) :
    joined.doublesSign b = state.doublesSign b := by
  rw [SweepState.doublesSign, SweepState.doublesSign, halike.last]
  cases hlast : state.last with
  | none =>
      by_cases hb : b = plus ∨ b = minus
      · rcases hb with rfl | rfl <;> rfl
      · simp_all
  | some c =>
      have hwritten := halike.begun (by simp [hlast])
      have hback : joined.written.back? = state.written.back? := by
        rw [← Array.getLast?_toList, halike.written hwritten,
          List.getLast?_append_of_ne_nil _ (by simpa using hwritten), Array.getLast?_toList]
      rw [halike.pending hwritten, hback]
      rfl

theorem KnowsAlike.terminatorAfter (halike : KnowsAlike before state joined)
    (hwritten : state.written ≠ #[]) (ending : Ending) (after : Bytes) :
    joined.terminatorAfter ending after = state.terminatorAfter ending after := by
  have hjoined : joined.written ≠ #[] := by
    intro hempty
    have hall := halike.written hwritten
    rw [hempty] at hall
    simp_all
  rw [SweepState.terminatorAfter, SweepState.terminatorAfter]
  simp [hwritten, hjoined]

/-- A call is met wherever it is spelled. -/
theorem MeetsCall.of_last {rest : Bytes} {method : Method} {opening : Nat}
    (hcall : state.MeetsCall rest method opening) (hlast : joined.last ≠ some dot) :
    joined.MeetsCall rest method (joined.offset + (opening - state.offset)) := by
  obtain ⟨gap, after, hgap, hrest, hopening⟩ := hcall.spelled
  exact ⟨hlast, gap, after, hgap, hrest, by omega⟩

theorem KnowsAlike.last_ne_dot_iff (halike : KnowsAlike before state joined) :
    joined.last ≠ some dot ↔ state.last ≠ some dot := by
  rw [halike.last]
  cases state.last with
  | none => decide
  | some b => simp

variable {front more : Bytes}

theorem Trails.callHere (htrails : Trails front before state joined) (method : Method) :
    joined.callHere method = (state.callHere method).behind front := by
  rw [SweepState.callHere, SweepState.callHere, htrails.offset, htrails.line]
  rfl

theorem Trails.meetsCall (htrails : Trails front before state joined) {rest : Bytes}
    {method : Method} {opening : Nat} (hcall : state.MeetsCall rest method opening) :
    joined.MeetsCall rest method (front.length + opening) := by
  have hjoined := hcall.of_last (htrails.last_ne_dot_iff.mpr hcall.notMember)
  have hlt := hcall.offset_lt
  rwa [htrails.offset, Nat.add_assoc, Nat.add_sub_cancel' hlt.le] at hjoined

/-- The joined sweep cuts off the same segment. -/
theorem NextSegment.behind {b : UInt8} {tail : Bytes} {kind : Segment.Kind} {count : Nat}
    (htrails : Trails front before state joined)
    (hsegment : NextSegment more state b tail kind count)
    (hwrites : kind.IsWritten ∨ state.written ≠ #[]) :
    NextSegment (front ++ more) joined b tail (kind.behind front) count := by
  have hdrop : ∀ closing, (front ++ more).drop (front.length + closing + 1) =
      more.drop (closing + 1) := by
    intro closing
    rw [Nat.add_assoc, List.drop_length_add_append]
  have hclosing : ∀ {opening found}, closingFrom more opening openParen closeParen = found →
      closingFrom (front ++ more) (front.length + opening) openParen closeParen =
        found.behind front := by
    rintro opening found rfl
    exact closingFrom_behind front more opening openParen closeParen
  cases hsegment with
  | literal hopened hvalue => exact .literal (htrails.opened? b tail ▸ hopened) hvalue
  | comment hopened hvalue => exact .comment (htrails.opened? b tail ▸ hopened) hvalue
  | space hspace => exact .space hspace
  | punctuation hopened hspace hb =>
      exact .punctuation (htrails.opened? b tail ▸ hopened) hspace hb
  | word hb hnone =>
      refine .word hb fun method opening hcall => ?_
      exact hnone method _ (hcall.of_last (htrails.last_ne_dot_iff.mp hcall.notMember))
  | unclosed hb hcall hunclosed =>
      rw [Segment.Kind.behind, ← htrails.callHere]
      exact .unclosed hb (htrails.meetsCall hcall) (hclosing hunclosed)
  | refused hb hcall hfound hjudge =>
      rw [Segment.Kind.behind, ← htrails.callHere]
      refine .refused hb (htrails.meetsCall hcall) (hclosing hfound) ?_
      rw [hdrop, htrails.judge, hjudge]
  | @removed method opening closing ending hb hcall hfound hjudge =>
      have hwritten : state.written ≠ #[] := hwrites.resolve_left id
      have hjudge' : LogSweep.judge joined.last joined.role joined.onNewLine
          ((front ++ more).drop (front.length + closing + 1)) = .ok ending := by
        rw [hdrop, htrails.judge, hjudge]
      have hnext := NextSegment.removed hb (htrails.meetsCall hcall) (hclosing hfound) hjudge'
      rw [hdrop, htrails.terminatorAfter hwritten, htrails.offset,
        Nat.add_sub_add_left, htrails.callHere] at hnext
      exact hnext

/-! ## The state behind the step -/

@[simp] theorem output_write (state : SweepState) (bytes : Bytes) :
    (state.write bytes).output = state.output ++ bytes := by
  simp [write, output]

theorem written_write_ne {bytes : Bytes} (hbytes : bytes ≠ []) (state : SweepState) :
    (state.write bytes).written ≠ #[] := by
  intro hempty
  have hwritten := write_written state bytes
  rw [hempty] at hwritten
  exact hbytes (List.append_eq_nil_iff.mp hwritten.symm).2

theorem KnowsAlike.writeToken (halike : KnowsAlike before state joined) {bytes : Bytes}
    (hbytes : bytes ≠ []) (last : UInt8) (role : Role) :
    KnowsAlike before (state.writeToken bytes last role)
      (joined.writeToken bytes last role) where
  output := by
    show (joined.write bytes).output = before.output ++ (state.write bytes).output
    rw [output_write, output_write, halike.output, List.append_assoc]
  last := rfl
  role := rfl
  heads := halike.heads
  pending _ := rfl
  writtenNewline _ := rfl
  begun _ := written_write_ne hbytes state

theorem KnowsAlike.writeComment (halike : KnowsAlike before state joined) {bytes : Bytes}
    (hbytes : bytes ≠ []) :
    KnowsAlike before (state.writeComment bytes) (joined.writeComment bytes) where
  output := by
    show (joined.write bytes).output = before.output ++ (state.write bytes).output
    rw [output_write, output_write, halike.output, List.append_assoc]
  last := halike.last
  role := halike.role
  heads := halike.heads
  pending _ := rfl
  writtenNewline hlast := by
    show (joined.onNewLine || _) = (state.onNewLine || _)
    rw [halike.onNewLine hlast]
  begun _ := written_write_ne hbytes state

theorem KnowsAlike.writePunctuation (halike : KnowsAlike before state joined) (b : UInt8) :
    KnowsAlike before (state.writePunctuation b) (joined.writePunctuation b) := by
  have hrole : joined.punctuationRole b = state.punctuationRole b := by
    rw [punctuationRole, punctuationRole, halike.heads, halike.doublesSign]
  have hheads : joined.headsAfter b = state.headsAfter b := by
    rw [headsAfter, headsAfter, halike.heads, halike.role]
  have htoken := halike.writeToken (List.cons_ne_nil b []) b (state.punctuationRole b)
  rw [SweepState.writePunctuation, SweepState.writePunctuation, hrole, hheads]
  exact { htoken with heads := rfl }

/-- Holding white space back, or dropping it, is the same only once the text
behind has written something. -/
theorem KnowsAlike.emit (halike : KnowsAlike before state joined) (segment : Segment)
    (hwrites : segment.kind.IsWritten ∨ state.written ≠ #[]) :
    KnowsAlike before (state.emit segment) (joined.emit (segment.behind front)) := by
  obtain ⟨kind, b, others⟩ := segment
  cases kind with
  | literal => exact halike.writeToken (List.cons_ne_nil b others) valueByte .plain
  | comment => exact halike.writeComment (List.cons_ne_nil b others)
  | punctuation => exact halike.writePunctuation b
  | word => exact halike.writeToken (List.cons_ne_nil b others) _ _
  | kept call obstacle => exact halike.writeToken (List.cons_ne_nil b others) _ _
  | space =>
      have hwritten : state.written ≠ #[] := hwrites.resolve_left id
      exact { halike with
        output := by
          show joined.written.toList ++ (joined.pending ++ b :: others) =
            before.output ++ (state.written.toList ++ (state.pending ++ b :: others))
          rw [halike.written hwritten, halike.pending hwritten, List.append_assoc]
        pending := fun _ => by
          show joined.pending ++ b :: others = state.pending ++ b :: others
          rw [halike.pending hwritten] }
  | removed call endsLine terminator =>
      have hwritten : state.written ≠ #[] := hwrites.resolve_left id
      cases endsLine with
      | false => exact halike
      | true =>
          exact { halike with
            output := by
              show joined.written.toList ++ [] =
                before.output ++ (state.written.toList ++ [])
              rw [halike.written hwritten, List.append_nil, List.append_nil]
            pending := fun _ => rfl }

theorem Trails.push (htrails : Trails front before state joined) (segment : Segment)
    (hwrites : segment.kind.IsWritten ∨ state.written ≠ #[]) :
    Trails front before (state.push segment) (joined.push (segment.behind front)) := by
  have halike : KnowsAlike before (state.emit segment) (joined.emit (segment.behind front)) :=
    htrails.toKnowsAlike.emit segment hwrites
  exact { halike with
    segments := by
      rw [toList_push_segments, toList_push_segments, htrails.segments]
      simp
    offset := by
      rw [push_offset, push_offset, htrails.offset, Segment.bytes_behind, Nat.add_assoc]
    line := by
      rw [push_line, push_line, htrails.line, Segment.bytes_behind, Nat.add_right_comm] }

/-! ## The sweep of the text behind -/

theorem written_push_ne {segment : Segment}
    (hwrites : segment.kind.IsWritten ∨ state.written ≠ #[]) :
    (state.push segment).written ≠ #[] := by
  obtain ⟨kind, b, others⟩ := segment
  cases kind with
  | literal => exact written_write_ne (List.cons_ne_nil b others) state
  | comment => exact written_write_ne (List.cons_ne_nil b others) state
  | punctuation => exact written_write_ne (List.cons_ne_nil b []) state
  | word => exact written_write_ne (List.cons_ne_nil b others) state
  | kept => exact written_write_ne (List.cons_ne_nil b others) state
  | space => exact hwrites.resolve_left id
  | removed call endsLine terminator =>
      cases endsLine <;> exact hwrites.resolve_left id

/-- The first segment of the text writes something. -/
def StartsWriting (src : Bytes) : Prop :=
  ∀ b tail kind count, src = b :: tail → NextSegment src initial b tail kind count →
    kind.IsWritten

theorem Reaches.written_ne {rest : Bytes} (hreach : Reaches more state rest)
    (hstarts : StartsWriting more) :
    state = initial ∧ rest = more ∨ state.written ≠ #[] := by
  induction hreach with
  | start => exact Or.inl ⟨rfl, rfl⟩
  | @step state b tail kind count hreach hnext hcut ih =>
      refine Or.inr (written_push_ne (ih.imp_left ?_))
      rintro ⟨rfl, hrest⟩
      exact hstarts b tail kind count hrest.symm (hreach.nextSegment hnext)

/-- Behind the seam the joined sweep takes the steps of the sweep of the text
behind. -/
theorem Reaches.behind {rest : Bytes} (hreach : Reaches more state rest)
    (hseam : Reaches (front ++ more) before more)
    (htrails : Trails front before initial before) (hstarts : StartsWriting more) :
    ∃ joined, Reaches (front ++ more) joined rest ∧ Trails front before state joined := by
  induction hreach with
  | start => exact ⟨before, hseam, htrails⟩
  | @step state b tail kind count hreach hnext hcut ih =>
      obtain ⟨joined, hjoined, htrails⟩ := ih
      have hsegment := hreach.nextSegment hnext
      have hwrites : kind.IsWritten ∨ state.written ≠ #[] := by
        refine (hreach.written_ne hstarts).imp_left ?_
        rintro ⟨rfl, hrest⟩
        exact hstarts b tail kind count hrest.symm hsegment
      have hbehind := NextSegment.behind htrails hsegment hwrites
      exact ⟨_, hjoined.step (hbehind.next_eq hjoined.drop_offset.1) hcut,
        htrails.push ⟨kind, b, tail.take count⟩ hwrites⟩

end

end SweepState
end LogSweep
