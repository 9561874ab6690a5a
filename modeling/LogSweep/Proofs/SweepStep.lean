import LogSweep.Proofs.CallSpelling
import LogSweep.Proofs.ParenthesisPairing

/-!
# The steps of a sweep

A sweep passes through states, each with the rest of the text still to read.
`NextSegment` says what the next segment is, with the closing parenthesis of a
call found by counting, and without faults.  `exists_nextSegment` shows that
the step decides just that: the offsets it computes are in range, and the table
of parentheses agrees with the search.
-/

namespace LogSweep

open Byte Bytes

namespace SweepState

/-- The states of a sweep of `src`, each with the rest that it has still to
read. -/
inductive Reaches (src : Bytes) : SweepState → Bytes → Prop where
  | start : Reaches src .initial src
  | step {state : SweepState} {b : UInt8} {tail : Bytes} {kind : Segment.Kind}
      {more : Nat} :
      Reaches src state (b :: tail) →
      state.next (.ofText src) b tail = .ok (kind, more) →
      tail.checkCut more = .ok () →
      Reaches src (state.push ⟨kind, b, tail.take more⟩) (tail.drop more)

/-- The rest starts with a call: the receiver, which is no member of something
else, a dot, the name of the method, white space, and the parenthesis at the
offset `opening`. -/
structure MeetsCall (state : SweepState) (rest : Bytes) (method : Method)
    (opening : Nat) : Prop where
  notMember : state.last ≠ some dot
  spelled :
    ∃ gap after, (∀ b ∈ gap, isWhitespace b = true) ∧
      rest = ofString receiver ++
        (dot :: ofString method.name ++ gap ++ openParen :: after) ∧
      opening = state.offset + (ofString receiver).length +
        (dot :: ofString method.name ++ gap).length

/-- The call that starts where the sweep stands. -/
def callHere (state : SweepState) (method : Method) : Call :=
  ⟨method, state.offset, state.line⟩

/-- The length of the line terminator that goes with a deleted statement. -/
def terminatorAfter (state : SweepState) (ending : Ending) (after : Bytes) :
    Nat :=
  if ending.endsLine = true ∧ state.written.isEmpty = true then
    terminatorLength (after.drop ending.length)
  else 0

/-- What the next segment is: its kind, and the number of its bytes after the
first, `b`. -/
inductive NextSegment (src : Bytes) (state : SweepState) (b : UInt8)
    (tail : Bytes) : Segment.Kind → Nat → Prop where
  | literal {literal : Literal} :
      Literal.opened? state.last b tail = some literal →
      literal.kind.isValue = true →
      NextSegment src state b tail .literal literal.more
  | comment {literal : Literal} :
      Literal.opened? state.last b tail = some literal →
      literal.kind.isValue = false →
      NextSegment src state b tail .comment literal.more
  | space :
      isWhitespace b = true →
      NextSegment src state b tail .space (runLength isWhitespace tail)
  | punctuation :
      Literal.opened? state.last b tail = none →
      isWhitespace b = false → isWord b = false →
      NextSegment src state b tail .punctuation 0
  | word :
      isWord b = true →
      (∀ method opening, ¬ state.MeetsCall (b :: tail) method opening) →
      NextSegment src state b tail .word (runLength isWord tail)
  | unclosed {method : Method} {opening : Nat} :
      isWord b = true →
      state.MeetsCall (b :: tail) method opening →
      closingFrom src opening openParen closeParen = .unclosed →
      NextSegment src state b tail
        (.kept (state.callHere method) .unclosed) (runLength isWord tail)
  | refused {method : Method} {opening closing : Nat} {obstacle : Obstacle} :
      isWord b = true →
      state.MeetsCall (b :: tail) method opening →
      closingFrom src opening openParen closeParen = .found closing →
      judge state.last state.role state.onNewLine (src.drop (closing + 1)) =
        .error obstacle →
      NextSegment src state b tail
        (.kept (state.callHere method) obstacle) (runLength isWord tail)
  | removed {method : Method} {opening closing : Nat} {ending : Ending} :
      isWord b = true →
      state.MeetsCall (b :: tail) method opening →
      closingFrom src opening openParen closeParen = .found closing →
      judge state.last state.role state.onNewLine (src.drop (closing + 1)) =
        .ok ending →
      NextSegment src state b tail
        (.removed (state.callHere method) ending.endsLine
          (state.terminatorAfter ending (src.drop (closing + 1))))
        (closing - state.offset + ending.length +
          state.terminatorAfter ending (src.drop (closing + 1)))

/-! ## Words -/

theorem receiver_of_meetsCall {state : SweepState} {b : UInt8} {tail : Bytes}
    {method : Method} {opening : Nat}
    (hcall : state.MeetsCall (b :: tail) method opening) :
    b :: tail.take (runLength isWord tail) = ofString receiver ∧
      isWord b = true ∧
      ∃ before, calledMethod? (tail.drop (runLength isWord tail)) =
          some (method, before) ∧
        opening = state.offset + runLength isWord tail + 1 + before ∧
        (tail.drop (runLength isWord tail)).drop before =
          (b :: tail).drop (opening - state.offset) := by
  obtain ⟨gap, after, hgap, hrest, hopening⟩ := hcall.spelled
  set called := dot :: ofString method.name ++ gap ++ openParen :: after
    with hcalled
  have hword : (b :: tail).takeWhile isWord = ofString receiver := by
    rw [hrest, hcalled, List.cons_append, List.cons_append]
    exact takeWhile_append_of_stop isWord_of_mem_receiver (by decide)
  have hb : isWord b = true := by
    by_contra hnot
    rw [List.takeWhile_cons_of_neg hnot] at hword
    exact absurd hword (by decide)
  rw [List.takeWhile_cons_of_pos hb, ← take_runLength] at hword
  have hlength : runLength isWord tail + 1 = (ofString receiver).length := by
    rw [← hword, List.length_cons, List.length_take,
      Nat.min_eq_left (runLength_le_length isWord tail)]
  have hafter : tail.drop (runLength isWord tail) = called := by
    have hdrop : (b :: tail).drop (ofString receiver).length = called := by
      rw [hrest, List.drop_left]
    rw [← hdrop, ← hlength, List.drop_succ_cons]
  refine ⟨hword, hb, _, calledMethod?_eq_some_iff.mpr
    ⟨gap, after, hgap, hafter, rfl⟩, by omega, ?_⟩
  have hskip : opening - state.offset = runLength isWord tail +
      (dot :: ofString method.name ++ gap).length + 1 := by
    omega
  rw [hskip, List.drop_succ_cons, List.drop_drop]

theorem meetsCall_of_calledMethod? {state : SweepState} {b : UInt8}
    {tail : Bytes} {method : Method} {before : Nat}
    (hword : b :: tail.take (runLength isWord tail) = ofString receiver)
    (hmember : state.last ≠ some dot)
    (hcalled : calledMethod? (tail.drop (runLength isWord tail)) =
      some (method, before)) :
    state.MeetsCall (b :: tail) method
      (state.offset + runLength isWord tail + 1 + before) := by
  obtain ⟨gap, after, hgap, hafter, hbefore⟩ :=
    calledMethod?_eq_some_iff.mp hcalled
  refine ⟨hmember, gap, after, hgap, ?_, ?_⟩
  · rw [← hword, ← hafter, List.cons_append, List.take_append_drop]
  · rw [← hword, hbefore, List.length_cons, List.length_take,
      Nat.min_eq_left (runLength_le_length isWord tail)]
    omega

theorem nextWord_of_meetsCall {state : SweepState} {b : UInt8} {tail : Bytes}
    {method : Method} {opening : Nat} (table : ParenTable)
    (hcall : state.MeetsCall (b :: tail) method opening) :
    state.nextWord table b tail = (do
      match ← table.closingOf opening
          ((b :: tail).drop (opening - state.offset)) with
      | none =>
        return (.kept (state.callHere method) .unclosed, runLength isWord tail)
      | some closing =>
        state.nextCall (state.callHere method) (runLength isWord tail) closing
          (b :: tail)) := by
  obtain ⟨hword, -, before, hcalled, hopening, hdrop⟩ :=
    receiver_of_meetsCall hcall
  simp only [nextWord]
  rw [if_pos ⟨hword, hcall.notMember⟩, hcalled]
  simp only [callHere]
  rewrite [← hopening, hdrop]
  rfl

theorem nextWord_of_forall_not_meetsCall {state : SweepState} {b : UInt8}
    {tail : Bytes} (table : ParenTable)
    (hnone : ∀ method opening, ¬ state.MeetsCall (b :: tail) method opening) :
    state.nextWord table b tail = .ok (.word, runLength isWord tail) := by
  simp only [nextWord]
  split_ifs with hreceiver
  · cases hcalled : calledMethod? (tail.drop (runLength isWord tail)) with
    | none =>
        rfl
    | some found =>
        obtain ⟨method, before⟩ := found
        have hcall :=
          meetsCall_of_calledMethod? hreceiver.1 hreceiver.2 hcalled
        exact absurd hcall (hnone _ _)
  · rfl

/-! ## The decision -/

section

variable {src rest : Bytes} {state : SweepState} {b : UInt8} {tail : Bytes}
  {method : Method} {opening : Nat}

theorem MeetsCall.offset_lt (hcall : state.MeetsCall rest method opening) :
    state.offset < opening := by
  obtain ⟨gap, after, -, -, hopening⟩ := hcall.spelled
  rw [List.cons_append, List.length_cons] at hopening
  omega

theorem MeetsCall.exists_cons (hcall : state.MeetsCall rest method opening) :
    ∃ b tail, rest = b :: tail := by
  obtain ⟨gap, after, -, hspelled, -⟩ := hcall.spelled
  exact ⟨_, _, hspelled⟩

theorem MeetsCall.openParen_at (hrest : src.drop state.offset = rest)
    (hcall : state.MeetsCall rest method opening) :
    src[opening]? = some openParen := by
  obtain ⟨gap, after, -, hspelled, rfl⟩ := hcall.spelled
  rw [hspelled] at hrest
  rw [Nat.add_assoc, ← List.getElem?_drop, hrest,
    List.getElem?_append_right (by omega), Nat.add_sub_cancel_left,
    List.getElem?_append_right (by omega), Nat.sub_self]
  rfl

theorem MeetsCall.drop_opening (hrest : src.drop state.offset = rest)
    (hcall : state.MeetsCall rest method opening) :
    rest.drop (opening - state.offset) = src.drop opening := by
  rw [← hrest, List.drop_drop, Nat.add_sub_cancel' hcall.offset_lt.le]

/-- Where a call is met, the table answers what counting from its parenthesis
finds, and counting meets no parenthesis too many. -/
theorem MeetsCall.closingOf (hrest : src.drop state.offset = rest)
    (hcall : state.MeetsCall rest method opening) :
    ∃ partner,
      (ParenTable.ofText src).closingOf opening
          (rest.drop (opening - state.offset)) = .ok partner ∧
        closingFrom src opening openParen closeParen =
          Closing.ofPartner partner := by
  rw [hcall.drop_opening hrest]
  exact ParenTable.closingOf_ofText (hcall.openParen_at hrest)

theorem nextCall_of_found {closing : Nat} {call : Call} {word : Nat}
    (hrest : src.drop state.offset = b :: tail)
    (hle : state.offset ≤ closing)
    (hbyte : src[closing]? = some closeParen) :
    state.nextCall call word closing (b :: tail) =
      match judge state.last state.role state.onNewLine
        (src.drop (closing + 1)) with
      | .error obstacle => .ok (.kept call obstacle, word)
      | .ok ending =>
        .ok (.removed call ending.endsLine
            (state.terminatorAfter ending (src.drop (closing + 1))),
          closing - state.offset + ending.length +
            state.terminatorAfter ending (src.drop (closing + 1))) := by
  have hlt : closing < src.length := (List.getElem?_eq_some_iff.mp hbyte).1
  have hlength : (b :: tail).length = src.length - state.offset := by
    rw [← hrest, List.length_drop]
  have hafter : suffixFrom (b :: tail) (closing - state.offset + 1) =
      .ok (src.drop (closing + 1)) := by
    rw [suffixFrom_of_le (by omega), ← hrest, List.drop_drop]
    congr 2
    omega
  unfold nextCall
  rw [distance, if_pos hle]
  simp only [bind, Except.bind, hafter]
  cases judge state.last state.role state.onNewLine (src.drop (closing + 1)) with
  | error obstacle => rfl
  | ok ending => rfl

/-- The answer of the table where counting has found the parenthesis, or none. -/
theorem MeetsCall.closingOf_eq {partner : Option Nat}
    (hrest : src.drop state.offset = rest)
    (hcall : state.MeetsCall rest method opening)
    (hsearch : closingFrom src opening openParen closeParen =
      Closing.ofPartner partner) :
    (ParenTable.ofText src).closingOf opening
      (rest.drop (opening - state.offset)) = .ok partner := by
  obtain ⟨answer, htable, hanswer⟩ := hcall.closingOf hrest
  rw [htable, Closing.ofPartner_injective (hanswer.symm.trans hsearch)]

theorem nextWord_of_unclosed (hrest : src.drop state.offset = b :: tail)
    (hcall : state.MeetsCall (b :: tail) method opening)
    (hsearch : closingFrom src opening openParen closeParen = .unclosed) :
    state.nextWord (.ofText src) b tail =
      .ok (.kept (state.callHere method) .unclosed, runLength isWord tail) := by
  have hnone : closingFrom src opening openParen closeParen = Closing.ofPartner none := hsearch
  rw [nextWord_of_meetsCall _ hcall, hcall.closingOf_eq hrest hnone]
  rfl

theorem nextWord_of_found {closing : Nat} (hrest : src.drop state.offset = b :: tail)
    (hcall : state.MeetsCall (b :: tail) method opening)
    (hfound : closingFrom src opening openParen closeParen = .found closing) :
    state.nextWord (.ofText src) b tail =
      match judge state.last state.role state.onNewLine
        (src.drop (closing + 1)) with
      | .error obstacle =>
        .ok (.kept (state.callHere method) obstacle, runLength isWord tail)
      | .ok ending =>
        .ok (.removed (state.callHere method) ending.endsLine
            (state.terminatorAfter ending (src.drop (closing + 1))),
          closing - state.offset + ending.length +
            state.terminatorAfter ending (src.drop (closing + 1))) := by
  obtain ⟨hle, hbyte⟩ := closingFrom_found hfound
  have hsome : closingFrom src opening openParen closeParen =
      Closing.ofPartner (some closing) := hfound
  rw [nextWord_of_meetsCall _ hcall, hcall.closingOf_eq hrest hsome]
  exact nextCall_of_found hrest (hcall.offset_lt.le.trans hle) hbyte

/-- Where the rest of the text is read, the step meets no fault, and what it
decides is the next segment. -/
theorem exists_nextSegment (hrest : src.drop state.offset = b :: tail) :
    ∃ kind more, state.next (.ofText src) b tail = .ok (kind, more) ∧
      NextSegment src state b tail kind more := by
  unfold next
  cases hopened : Literal.opened? state.last b tail with
  | some literal =>
      cases hvalue : literal.kind.isValue with
      | true => exact ⟨_, _, by simp [hvalue]; rfl, .literal hopened hvalue⟩
      | false => exact ⟨_, _, by simp [hvalue]; rfl, .comment hopened hvalue⟩
  | none =>
      simp only
      split_ifs with hspace hword
      · exact ⟨_, _, rfl, .space hspace⟩
      · by_cases hcalls : ∃ method opening,
            state.MeetsCall (b :: tail) method opening
        · obtain ⟨method, opening, hcall⟩ := hcalls
          obtain ⟨partner, -, hsearch⟩ := hcall.closingOf hrest
          cases partner with
          | none =>
              exact ⟨_, _, nextWord_of_unclosed hrest hcall hsearch,
                .unclosed hword hcall hsearch⟩
          | some closing =>
              rw [nextWord_of_found hrest hcall hsearch]
              cases hjudge : judge state.last state.role state.onNewLine
                  (src.drop (closing + 1)) with
              | error obstacle =>
                  exact ⟨_, _, rfl, .refused hword hcall hsearch hjudge⟩
              | ok ending =>
                  exact ⟨_, _, rfl, .removed hword hcall hsearch hjudge⟩
        · have hnone : ∀ method opening,
              ¬ state.MeetsCall (b :: tail) method opening :=
            fun method opening hcall => hcalls ⟨method, opening, hcall⟩
          rw [nextWord_of_forall_not_meetsCall _ hnone]
          exact ⟨_, _, rfl, .word hword hnone⟩
      · refine ⟨_, _, rfl, .punctuation hopened ?_ ?_⟩
        · simpa using hspace
        · simpa using hword

theorem next_of_isWord {table : ParenTable} (hb : isWord b = true) :
    state.next table b tail = state.nextWord table b tail := by
  have hspace : isWhitespace b ≠ true := by
    intro hspace
    simp [isWord_of_isWhitespace hspace] at hb
  rw [next, opened?_eq_none_of_isWord hb]
  simp only [if_neg hspace, if_pos hb]

/-- The step decides for the next segment, whatever it is. -/
theorem NextSegment.next_eq {kind : Segment.Kind} {more : Nat}
    (hrest : src.drop state.offset = b :: tail)
    (hsegment : NextSegment src state b tail kind more) :
    state.next (.ofText src) b tail = .ok (kind, more) := by
  cases hsegment with
  | literal hopened hvalue =>
      rw [next, hopened]
      simp [hvalue]
      rfl
  | comment hopened hvalue =>
      rw [next, hopened]
      simp [hvalue]
      rfl
  | space hspace =>
      rw [next, opened?_eq_none_of_isWhitespace hspace]
      simp only [if_pos hspace]
      rfl
  | punctuation hopened hspace hb =>
      rw [next, hopened]
      simp [hspace, hb]
      rfl
  | word hb hnone =>
      rw [next_of_isWord hb, nextWord_of_forall_not_meetsCall _ hnone]
  | unclosed hb hcall hsearch =>
      rw [next_of_isWord hb, nextWord_of_unclosed hrest hcall hsearch]
  | refused hb hcall hfound hjudge =>
      rw [next_of_isWord hb, nextWord_of_found hrest hcall hfound, hjudge]
  | removed hb hcall hfound hjudge =>
      rw [next_of_isWord hb, nextWord_of_found hrest hcall hfound, hjudge]

theorem NextSegment.of_next {kind : Segment.Kind} {more : Nat}
    (hrest : src.drop state.offset = b :: tail)
    (hnext : state.next (.ofText src) b tail = .ok (kind, more)) :
    NextSegment src state b tail kind more := by
  obtain ⟨kind', more', hnext', hsegment⟩ := exists_nextSegment hrest
  rw [hnext'] at hnext
  simp only [Except.ok.injEq, Prod.mk.injEq] at hnext
  exact hnext.1 ▸ hnext.2 ▸ hsegment

/-! ## Where the segment ends -/

theorem terminatorAfter_spelled (state : SweepState) (ending : Ending)
    (after : Bytes) :
    ∃ spelled beyond, after.drop ending.length = spelled ++ beyond ∧
      state.terminatorAfter ending after = spelled.length ∧
      (spelled = [] ∨ spelled = [newline] ∨
        spelled = [carriageReturn, newline]) := by
  unfold terminatorAfter
  split_ifs with hdropped
  · exact terminatorLength_spelled (after.drop ending.length)
  · exact ⟨[], after.drop ending.length, rfl, rfl, Or.inl rfl⟩

theorem isWhitespace_of_mem_terminator {terminator : Bytes}
    (hcases : terminator = [] ∨ terminator = [newline] ∨
      terminator = [carriageReturn, newline]) :
    ∀ b ∈ terminator, isWhitespace b = true := by
  intro b hb
  rcases hcases with rfl | rfl | rfl
  · cases hb
  · rw [List.mem_singleton.mp hb]
    rfl
  · rcases List.mem_pair.mp hb with rfl | rfl <;> rfl

/-- A deleted statement behind its closing parenthesis: its ending, and the
line terminator that goes with it. -/
theorem ending_spelled {after : Bytes} {ending : Ending}
    (hjudge : judge state.last state.role state.onNewLine after = .ok ending) :
    ∃ spelled terminator beyond,
      after = spelled ++ (terminator ++ beyond) ∧ SpellsEnding spelled ∧
        ending.length = spelled.length ∧
        ending.endsLine = atLineEnd (terminator ++ beyond) ∧
        state.terminatorAfter ending after = terminator.length ∧
        (terminator = [] ∨ terminator = [newline] ∨
          terminator = [carriageReturn, newline]) := by
  obtain ⟨-, -, -, rfl⟩ := judge_eq_ok_iff.mp hjudge
  obtain ⟨spelled, further, hafter, hspelled, hlength, hline⟩ :=
    Ending.read_spelled after
  obtain ⟨terminator, beyond, hdrop, hterminator, hcases⟩ :=
    terminatorAfter_spelled state (Ending.read after) after
  have hfurther : further = terminator ++ beyond := by
    rw [← hdrop, hlength, hafter, List.drop_left]
  subst further
  exact ⟨spelled, terminator, beyond, hafter, hspelled, hlength, hline,
    hterminator, hcases⟩

/-- The line ends behind a statement that is deleted with it, or nothing was
written yet. -/
theorem NextSegment.atLineEnd_of_removed {kind : Segment.Kind} {call : Call}
    {more terminator : Nat} (hrest : src.drop state.offset = b :: tail)
    (hsegment : NextSegment src state b tail kind more)
    (hkind : kind = .removed call true terminator)
    (hwritten : state.written.isEmpty = false) :
    atLineEnd (tail.drop more) = true := by
  cases hsegment with
  | @removed method opening closing ending _ hcall hfound hjudge =>
      obtain ⟨spelled, terminator, beyond, hafter, -, hlength, hline, hterminator,
        -⟩ := ending_spelled hjudge
      have hnone : terminator = [] := by
        rw [terminatorAfter, if_neg (by simp [hwritten])] at hterminator
        exact List.length_eq_zero_iff.mp hterminator.symm
      have hends : ending.endsLine = true := by
        simp only [Segment.Kind.removed.injEq] at hkind
        exact hkind.2.1
      have hle := hcall.offset_lt.le.trans (closingFrom_found hfound).1
      have hstop : state.offset + (closing - state.offset + ending.length +
          state.terminatorAfter ending (src.drop (closing + 1)) + 1) =
            closing + 1 + spelled.length := by
        rw [hlength, hterminator, hnone, List.length_nil]
        omega
      rw [hnone, List.nil_append] at hafter hline
      rw [← List.drop_succ_cons, ← hrest, List.drop_drop, hstop, ← List.drop_drop,
        hafter, List.drop_left, ← hline, hends]
  | _ => cases hkind

theorem asciiCut_of_found {closing : Nat} {ending : Ending}
    (hrest : src.drop state.offset = b :: tail)
    (hle : state.offset ≤ closing)
    (hbyte : src[closing]? = some closeParen)
    (hjudge : judge state.last state.role state.onNewLine
      (src.drop (closing + 1)) = .ok ending) :
    AsciiCut (b :: tail) (closing - state.offset + (ending.length +
      state.terminatorAfter ending (src.drop (closing + 1)) + 1)) := by
  obtain ⟨spelled, terminator, beyond, hafter, hspelled, hlength, -,
    hterminator, hcases⟩ := ending_spelled hjudge
  have hclosing := (List.getElem?_eq_some_iff.mp hbyte).1
  have hdrop : (b :: tail).drop (closing - state.offset) =
      closeParen :: (spelled ++ (terminator ++ beyond)) := by
    rw [← hrest, List.drop_drop, Nat.add_sub_cancel' hle,
      drop_eq_cons_of_getElem? hbyte, hafter]
  have hascii : AsciiCut (closeParen :: (spelled ++ (terminator ++ beyond)))
      ((spelled ++ terminator).length + 1) := by
    refine asciiCut_of_forall_ascii (by simp) (fun c hc => ?_)
    rw [List.take_succ_cons, ← List.append_assoc, List.take_left,
      List.mem_cons, List.mem_append] at hc
    rcases hc with rfl | hc | hc
    · decide
    · exact hspelled.ascii c hc
    · exact ascii_of_isWhitespace (isWhitespace_of_mem_terminator hcases c hc)
  have hskipped : closing - state.offset ≤ (b :: tail).length := by
    rw [← hrest, List.length_drop]
    omega
  have hcut := AsciiCut.of_drop hskipped (hdrop ▸ hascii)
  rwa [List.length_append, ← hlength, ← hterminator] at hcut

/-- Every segment ends beside an ASCII byte, or with the text. -/
theorem NextSegment.asciiCut {kind : Segment.Kind} {more : Nat}
    (hrest : src.drop state.offset = b :: tail)
    (hsegment : NextSegment src state b tail kind more) :
    AsciiCut (b :: tail) (more + 1) := by
  have hword : AsciiCut (b :: tail) (runLength isWord tail + 1) :=
    .later (asciiCut_runLength isWord_false_ascii tail)
  cases hsegment with
  | literal hopened => exact .later (Literal.opened?_asciiCut hopened)
  | comment hopened => exact .later (Literal.opened?_asciiCut hopened)
  | word => exact hword
  | unclosed => exact hword
  | refused => exact hword
  | space hspace =>
      refine asciiCut_of_forall_ascii ?_ (fun c hc => ?_)
      · simpa using runLength_le_length isWhitespace tail
      · rw [List.take_succ_cons] at hc
        exact ascii_of_isWhitespace (forall_mem_run hspace tail c hc)
  | punctuation _ _ hb => exact .after (isWord_false_ascii b hb)
  | @removed method opening closing ending _ hcall hfound hjudge =>
      obtain ⟨hle, hbyte⟩ := closingFrom_found hfound
      have hcut := asciiCut_of_found hrest (hcall.offset_lt.le.trans hle) hbyte
        hjudge
      rwa [← Nat.add_assoc, ← Nat.add_assoc] at hcut

end

/-! ## What a segment leaves alone -/

section

variable (state : SweepState) (segment : Segment)

@[simp] theorem emit_offset : (state.emit segment).offset = state.offset := by
  unfold emit
  split <;> try rfl
  split <;> rfl

@[simp] theorem emit_line : (state.emit segment).line = state.line := by
  unfold emit
  split <;> try rfl
  split <;> rfl

@[simp] theorem emit_segments :
    (state.emit segment).segments = state.segments := by
  unfold emit
  split <;> try rfl
  split <;> rfl

@[simp] theorem push_offset :
    (state.push segment).offset = state.offset + segment.bytes.length := by
  simp [push]

@[simp] theorem push_line :
    (state.push segment).line = state.line + segment.bytes.count newline := by
  simp [push]

@[simp] theorem push_segments :
    (state.push segment).segments = state.segments.push segment := by
  simp [push]

theorem toList_push_segments :
    (state.push segment).segments.toList =
      state.segments.toList ++ [segment] := by
  rw [push_segments, Array.toList_push]

end

theorem length_bytes_of_cut {kind : Segment.Kind} {b : UInt8} {tail : Bytes}
    {more : Nat} (hcut : tail.checkCut more = .ok ()) :
    (Segment.mk kind b (tail.take more)).bytes.length = more + 1 := by
  have hmore := (checkCut_eq_ok_iff.mp hcut).1
  simp [Segment.bytes, Nat.min_eq_left hmore]

/-! ## What every state of a sweep has in common -/

theorem Reaches.drop_offset {src : Bytes} {state : SweepState} {rest : Bytes}
    (hreach : Reaches src state rest) :
    src.drop state.offset = rest ∧ state.offset ≤ src.length := by
  induction hreach with
  | start => simp [initial]
  | @step state b tail kind more _ _ hcut ih =>
      obtain ⟨hrest, hle⟩ := ih
      have hmore := (checkCut_eq_ok_iff.mp hcut).1
      have hlength : (b :: tail).length = src.length - state.offset := by
        rw [← hrest, List.length_drop]
      rw [List.length_cons] at hlength
      rw [push_offset, length_bytes_of_cut hcut]
      constructor
      · rw [← List.drop_drop, hrest, List.drop_succ_cons]
      · omega

theorem Reaches.nextSegment {src : Bytes} {state : SweepState} {b : UInt8}
    {tail : Bytes} {kind : Segment.Kind} {more : Nat}
    (hreach : Reaches src state (b :: tail))
    (hnext : state.next (.ofText src) b tail = .ok (kind, more)) :
    NextSegment src state b tail kind more :=
  .of_next hreach.drop_offset.1 hnext

theorem Reaches.run_eq {src : Bytes} {state : SweepState} {rest : Bytes}
    (hreach : Reaches src state rest) :
    run (.ofText src) state rest = sweep src := by
  induction hreach with
  | start => rfl
  | @step state b tail kind more _ hnext hcut ih =>
      rw [← ih]
      conv => rhs; rw [run, hnext]
      simp [bind, Except.bind, hcut]

/-! ## Looking up the parenthesis -/

theorem next_of_meetsCall {state : SweepState} {b : UInt8} {tail : Bytes}
    {method : Method} {opening : Nat} (table : ParenTable)
    (hcall : state.MeetsCall (b :: tail) method opening) :
    state.next table b tail = state.nextWord table b tail :=
  next_of_isWord (receiver_of_meetsCall hcall).2.1

end SweepState

open SweepState

/-- The table of a text agrees with the search.  Each of its keys is the offset
of an opening parenthesis, from which counting comes to the partner noted for
it, and never to a parenthesis too many.  So in every state of a sweep, for a
call that it meets there, what the table or else the fallback answers is what
counting finds in the whole text, and the step goes on from that answer. -/
theorem closingOf_eq_closingFrom (src : Bytes) :
    (∀ opening partner, (ParenTable.ofText src).get? opening = some partner →
      src[opening]? = some openParen ∧
        closingFrom src opening openParen closeParen ≠ .unopened ∧
        closingFrom src opening openParen closeParen =
          Closing.ofPartner partner) ∧
    ∀ state b tail method opening, Reaches src state (b :: tail) →
      state.MeetsCall (b :: tail) method opening →
      ∃ partner,
        (ParenTable.ofText src).closingOf opening
            ((b :: tail).drop (opening - state.offset)) = .ok partner ∧
          closingFrom src opening openParen closeParen =
            Closing.ofPartner partner ∧
          state.next (.ofText src) b tail =
            match partner with
            | none =>
              .ok (.kept (state.callHere method) .unclosed,
                runLength isWord tail)
            | some closing =>
              state.nextCall (state.callHere method) (runLength isWord tail)
                closing (b :: tail) := by
  constructor
  · intro opening partner hget
    have hmem := ParenTable.get?_ofText_eq_some_iff.mp hget
    obtain ⟨hbyte, hsearch⟩ := Pairing.search_of_mem_pairs hmem
    refine ⟨hbyte, ?_, hsearch⟩
    rw [hsearch]
    exact Closing.ofPartner_ne_unopened partner
  · intro state b tail method opening hreach hcall
    obtain ⟨partner, htable, hsearch⟩ := hcall.closingOf hreach.drop_offset.1
    refine ⟨partner, htable, hsearch, ?_⟩
    rw [next_of_meetsCall _ hcall, nextWord_of_meetsCall _ hcall, htable]
    cases partner <;> rfl

/-- Once the call in front of it is deleted, a regex that holds a quote is read
as one, so a second call is met although the table lacks it. -/
theorem closingOf_eq_closingFrom_beyond_table :
    ∃ src, src = ofString "console.log(1)/**//'/;console.log(2)" ∧
      (ParenTable.ofText src).get? 11 = some (some 13) ∧
      closingFrom src 11 openParen closeParen = .found 13 ∧
      (ParenTable.ofText src).get? 33 = none ∧
      ∃ state b tail, Reaches src state (b :: tail) ∧
        state.MeetsCall (b :: tail) .log 33 ∧
        (ParenTable.ofText src).closingOf 33
          ((b :: tail).drop (33 - state.offset)) = .ok (some 35) := by
  obtain ⟨hkeys, hcalls⟩ :=
    closingOf_eq_closingFrom (ofString "console.log(1)/**//'/;console.log(2)")
  have hkey : (ParenTable.ofText
      (ofString "console.log(1)/**//'/;console.log(2)")).get? 11 =
        some (some 13) := by
    decide +kernel
  have hremoved := @Reaches.step _ .initial 99
    ((ofString "console.log(1)/**//'/;console.log(2)").drop 1)
    (.removed ⟨.log, 0, 1⟩ false 0) 13 .start
    (by decide +kernel) (by decide +kernel)
  have hcomment := @Reaches.step _ _ slash
    ((ofString "console.log(1)/**//'/;console.log(2)").drop 15)
    .comment 3 hremoved (by decide +kernel) (by decide +kernel)
  have hregex := @Reaches.step _ _ slash
    ((ofString "console.log(1)/**//'/;console.log(2)").drop 19)
    .literal 2 hcomment (by decide +kernel) (by decide +kernel)
  have hreach := @Reaches.step _ _ semicolon
    ((ofString "console.log(1)/**//'/;console.log(2)").drop 22)
    .punctuation 0 hregex (by decide +kernel) (by decide +kernel)
  have hmeets : ∀ state : SweepState, state.last ≠ some dot →
      state.offset = 22 → state.MeetsCall
        (99 :: (ofString "console.log(1)/**//'/;console.log(2)").drop 23)
        .log 33 := by
    intro state hlast hoffset
    exact ⟨hlast, [],
      (ofString "console.log(1)/**//'/;console.log(2)").drop 34,
      by simp, by decide +kernel, by rw [hoffset]; decide +kernel⟩
  obtain ⟨partner, htable, hsearch, -⟩ := hcalls _ _ _ .log 33 hreach
    (hmeets _ (by decide +kernel) (by decide +kernel))
  have hfound : closingFrom (ofString "console.log(1)/**//'/;console.log(2)")
      33 openParen closeParen = .found 35 := by
    decide +kernel
  have hpartner : partner = some 35 := by
    cases partner <;> simp_all [Closing.ofPartner]
  rw [hpartner] at htable
  exact ⟨_, rfl, hkey, (hkeys 11 _ hkey).2.2, by decide +kernel, _, _, _,
    hreach, hmeets _ (by decide +kernel) (by decide +kernel), htable⟩

end LogSweep
