import LogSweep.Proofs.LiteralContinuation
import LogSweep.Proofs.SweepTotality

/-!
# A sweep with more text behind

The sweep of a text that ends with a semicolon and a line feed takes the same
steps if more text follows, up to that semicolon, as long as each call that it
meets is closed within the text.
-/

namespace LogSweep

open Byte Bytes

/-! ## Behind a closing parenthesis -/

theorem dropWhile_append_of_mem {inClass : UInt8 → Bool} {stop : UInt8} {rest : Bytes}
    (hmem : stop ∈ rest) (hstop : inClass stop = false) (more : Bytes) :
    (rest ++ more).dropWhile inClass = rest.dropWhile inClass ++ more ∧
      stop ∈ rest.dropWhile inClass := by
  induction rest with
  | nil => simp at hmem
  | cons b rest ih =>
      rw [List.cons_append, List.dropWhile_cons, List.dropWhile_cons]
      split_ifs with hb
      · rcases List.mem_cons.mp hmem with rfl | hmem
        · simp [hstop] at hb
        · exact ih hmem
      · exact ⟨rfl, hmem⟩

theorem ClosedEnd.dropWhile {rest : Bytes} (hend : ClosedEnd rest)
    (inClass : UInt8 → Bool) : ClosedEnd (rest.dropWhile inClass) := by
  rw [← drop_runLength]
  exact hend.drop _

theorem ClosedEnd.endsClosed_of_mem {rest : Bytes} (hend : ClosedEnd rest)
    (hmem : semicolon ∈ rest) : EndsClosed rest := by
  rcases hend with rfl | rfl | hcloses
  · simp at hmem
  · exact absurd hmem (by decide)
  · exact hcloses

section

variable {rest : Bytes}

theorem atLineEnd_append (hsome : rest ≠ []) (more : Bytes) :
    atLineEnd (rest ++ more) = atLineEnd rest := by
  cases rest with
  | nil => exact absurd rfl hsome
  | cons b rest => rfl

theorem opensComment_append (hend : ClosedEnd rest) (hsome : rest ≠ []) (more : Bytes) :
    opensComment (rest ++ more) = opensComment rest := by
  match rest with
  | [] => exact absurd rfl hsome
  | [b] =>
      have hb : newline = b := by simpa using hend.newline_mem hsome
      subst hb
      cases more <;> rfl
  | b :: next :: rest => rfl

theorem continuesLine_append (hend : ClosedEnd rest) (hsome : rest ≠ []) (more : Bytes) :
    continuesLine (rest ++ more) = continuesLine rest := by
  have hcomment := opensComment_append hend hsome more
  cases rest with
  | nil => exact absurd rfl hsome
  | cons b rest =>
      rw [List.cons_append, continuesLine, continuesLine, ← List.cons_append, hcomment]

theorem endsBefore_append (hend : ClosedEnd rest) (hsome : rest ≠ []) (more : Bytes) :
    endsBefore (rest ++ more) = endsBefore rest := by
  rw [endsBefore, endsBefore, List.head?_append_of_ne_nil rest hsome,
    opensComment_append hend hsome]

theorem terminatorLength_append (hend : ClosedEnd rest) (hsome : rest ≠ []) (more : Bytes) :
    terminatorLength (rest ++ more) = terminatorLength rest := by
  cases rest with
  | nil => exact absurd rfl hsome
  | cons b rest =>
      rw [List.cons_append, terminatorLength, terminatorLength]
      split_ifs with hnewline hlong hshort hshort
      · rfl
      · rfl
      · have hrest := (hend.endsClosed hnewline (hlong.1 ▸ by decide)).ne_nil
        rw [List.head?_append_of_ne_nil rest hrest] at hlong
        exact absurd hlong hshort
      · have hrest := (hend.endsClosed hnewline (hshort.1 ▸ by decide)).ne_nil
        rw [List.head?_append_of_ne_nil rest hrest] at hlong
        exact absurd hshort hlong
      · rfl

/-- The ending of a call is told before the text ends. -/
theorem Ending.read_append (hcloses : EndsClosed rest) (more : Bytes) :
    Ending.read (rest ++ more) = Ending.read rest := by
  have hsemicolon := hcloses.semicolon_mem
  have hle := runLength_le_length isBlank rest
  have hbehind : EndsClosed (rest.drop (runLength isBlank rest)) := by
    refine (hcloses.closedEnd.drop _).endsClosed_of_mem ?_
    rw [drop_runLength]
    exact (dropWhile_append_of_mem hsemicolon (by decide) more).2
  rw [read, read, runLength_append_of_mem hsemicolon (by decide),
    List.drop_append_of_le_length hle]
  cases hafter : rest.drop (runLength isBlank rest) with
  | nil => exact absurd hafter hbehind.ne_nil
  | cons b after =>
      rw [hafter] at hbehind
      simp only [List.cons_append]
      rw [← List.cons_append, atLineEnd_append hbehind.ne_nil more]
      split_ifs with hb hline
      · -- behind a semicolon the line still ends
        have hnewline : newline ∈ after := by
          rcases hbehind.tail_cases with ⟨-, rfl⟩ | htail
          · exact List.mem_singleton_self newline
          · exact htail.closedEnd.newline_mem htail.ne_nil
        obtain ⟨hdrop, hmem⟩ :=
          dropWhile_append_of_mem hnewline (show isBlank newline = false by decide) more
        rw [runLength_append_of_mem hnewline (by decide),
          List.drop_append_of_le_length (runLength_le_length isBlank after),
          atLineEnd_append (by rw [drop_runLength]; exact List.ne_nil_of_mem hmem)]
      · obtain ⟨hdrop, hmem⟩ := dropWhile_append_of_mem hbehind.semicolon_mem
          (show isWhitespace semicolon = false by decide) more
        rw [hdrop, continuesLine_append (hbehind.closedEnd.dropWhile isWhitespace)
          (List.ne_nil_of_mem hmem)]
      · rw [endsBefore_append hbehind.closedEnd hbehind.ne_nil]

end

/-! ## The next segment -/

theorem closingFrom_append {src : Bytes} {opening closing : Nat}
    (hend : ClosedEnd src)
    (hfound : closingFrom src opening openParen closeParen = .found closing)
    (more : Bytes) :
    closingFrom (src ++ more) opening openParen closeParen = .found closing := by
  obtain ⟨hle, hbyte⟩ := closingFrom_found hfound
  have hlt := (List.getElem?_eq_some_iff.mp hbyte).1
  rw [closingFrom, codeBytes_eq_codeAfter] at hfound ⊢
  rw [List.drop_append_of_le_length (by omega)]
  exact closingIn_append (hend.drop opening) hfound more

/-- Behind a parenthesis that was found the semicolon is still to come. -/
theorem EndsClosed.drop_succ {src : Bytes} {closing : Nat} (hcloses : EndsClosed src)
    (hbyte : src[closing]? = some closeParen) : EndsClosed (src.drop (closing + 1)) := by
  have hend := hcloses.closedEnd.drop closing
  rw [drop_eq_cons_of_getElem? hbyte] at hend
  exact hend.endsClosed (by decide) (by decide)

theorem judge_append {last : Option UInt8} {role : Role} {onNewLine : Bool}
    {rest : Bytes} (hcloses : EndsClosed rest) (more : Bytes) :
    judge last role onNewLine (rest ++ more) = judge last role onNewLine rest := by
  rw [judge, judge, Ending.read_append hcloses]

namespace SweepState

section

variable {src : Bytes} {state : SweepState} {b : UInt8} {tail : Bytes}

theorem MeetsCall.append {rest : Bytes} {method : Method} {opening : Nat}
    (hcall : state.MeetsCall rest method opening) (more : Bytes) :
    state.MeetsCall (rest ++ more) method opening := by
  obtain ⟨gap, after, hgap, hrest, hopening⟩ := hcall.spelled
  exact ⟨hcall.notMember, gap, after ++ more, hgap, by simp [hrest], hopening⟩

/-- A call is spelled without a semicolon up to its parenthesis. -/
theorem MeetsCall.of_append {rest more : Bytes} {method : Method} {opening : Nat}
    (hcall : state.MeetsCall (rest ++ more) method opening)
    (hsemicolon : semicolon ∈ rest) : state.MeetsCall rest method opening := by
  obtain ⟨gap, after, hgap, hrest, hopening⟩ := hcall.spelled
  set head := ofString receiver ++ (dot :: ofString method.name ++ gap ++ [openParen])
    with hhead
  have hsplit : rest ++ more = head ++ after := by
    rw [hrest, hhead]
    simp
  rcases List.append_eq_append_iff.mp hsplit with ⟨behind, hinside, -⟩ | ⟨after', hrest', -⟩
  · have hmem : semicolon ∈ head := by
      rw [hinside]
      exact List.mem_append_left _ hsemicolon
    simp only [hhead, List.mem_append, List.mem_cons, List.not_mem_nil, or_false] at hmem
    rcases hmem with hreceiver | ((hdot | hname) | hspace) | hparen
    · exact absurd hreceiver (by decide)
    · exact absurd hdot (by decide)
    · exact absurd (isWord_of_mem_name method _ hname) (by decide)
    · exact absurd (hgap _ hspace) (by decide)
    · exact absurd hparen (by decide)
  · exact ⟨hcall.notMember, gap, after', hgap, by simp [hrest', hhead], hopening⟩

theorem terminatorAfter_append {ending : Ending} {after : Bytes} (hend : ClosedEnd after)
    (hlt : ending.length < after.length) (more : Bytes) :
    state.terminatorAfter ending (after ++ more) = state.terminatorAfter ending after := by
  have hsome : after.drop ending.length ≠ [] := by
    simpa using hlt
  rw [terminatorAfter, terminatorAfter, List.drop_append_of_le_length hlt.le,
    terminatorLength_append (hend.drop _) hsome]

/-- A segment that the text goes on behind is cut off the same if more text
follows, unless it is a call that is not closed. -/
theorem NextSegment.append {kind : Segment.Kind} {count : Nat}
    (hrest : src.drop state.offset = b :: tail)
    (hsegment : NextSegment src state b tail kind count)
    (hclosed : ∀ call, kind ≠ .kept call .unclosed)
    (hcloses : EndsClosed (tail.drop count)) (more : Bytes) :
    NextSegment (src ++ more) state b (tail ++ more) kind count := by
  have htail : EndsClosed tail := hcloses.trans (List.drop_suffix count tail)
  have hsrc : EndsClosed src :=
    (htail.trans (List.suffix_cons b tail)).trans (hrest ▸ List.drop_suffix _ src)
  have hend : ClosedEnd (b :: tail) :=
    EndsClosed.closedEnd (htail.trans (List.suffix_cons b tail))
  have hlt : count < tail.length := by
    simpa using hcloses.ne_nil
  have hword := runLength_append_of_mem htail.semicolon_mem
    (show isWord semicolon = false by decide) more
  have hdrop : ∀ closing, src[closing]? = some closeParen →
      (src ++ more).drop (closing + 1) = src.drop (closing + 1) ++ more := by
    intro closing hbyte
    exact List.drop_append_of_le_length (List.getElem?_eq_some_iff.mp hbyte).1
  cases hsegment with
  | literal hopened hvalue =>
      exact .literal (Literal.opened?_append_of_lt hend hopened hlt more) hvalue
  | comment hopened hvalue =>
      exact .comment (Literal.opened?_append_of_lt hend hopened hlt more) hvalue
  | space hspace =>
      rw [← runLength_append_of_mem htail.semicolon_mem (by decide) more]
      exact .space hspace
  | punctuation hopened hspace hb =>
      exact .punctuation (Literal.opened?_append_of_none hend hopened more) hspace hb
  | word hb hnone =>
      rw [← hword]
      refine .word hb fun method opening hcall => hnone method opening ?_
      exact hcall.of_append (List.mem_cons_of_mem b htail.semicolon_mem)
  | unclosed => exact absurd rfl (hclosed _)
  | refused hb hcall hfound hjudge =>
      have hbyte := (closingFrom_found hfound).2
      rw [← judge_append (hsrc.drop_succ hbyte) more, ← hdrop _ hbyte] at hjudge
      rw [← hword]
      exact .refused hb (hcall.append more)
        (closingFrom_append hsrc.closedEnd hfound more) hjudge
  | @removed method opening closing ending hb hcall hfound hjudge =>
      obtain ⟨hle, hbyte⟩ := closingFrom_found hfound
      have hbehind := hsrc.drop_succ hbyte
      have hshorter : ending.length < (src.drop (closing + 1)).length := by
        have hlength := congrArg List.length hrest
        have hoffset := hcall.offset_lt
        rw [List.length_drop, List.length_cons] at hlength
        rw [List.length_drop]
        omega
      rw [← judge_append hbehind more, ← hdrop _ hbyte] at hjudge
      rw [← terminatorAfter_append hbehind.closedEnd hshorter more, ← hdrop _ hbyte]
      exact .removed hb (hcall.append more)
        (closingFrom_append hsrc.closedEnd hfound more) hjudge

/-! ## The steps up to the semicolon -/

/-- None of the calls kept so far lacks its closing parenthesis. -/
def ClosesCalls (state : SweepState) : Prop :=
  ∀ segment ∈ state.segments.toList, ∀ call, segment.kind ≠ .kept call .unclosed

theorem checkCut_append {rest : Bytes} {count : Nat} (hcut : rest.checkCut count = .ok ())
    (hlt : count < rest.length) (more : Bytes) :
    (rest ++ more).checkCut count = .ok () := by
  obtain ⟨hle, hstarts⟩ := checkCut_eq_ok_iff.mp hcut
  rw [checkCut_eq_ok_iff, List.drop_append_of_le_length hle]
  refine ⟨by simpa using Nat.le_add_right_of_le hle, ?_⟩
  rw [List.drop_eq_getElem_cons hlt] at hstarts ⊢
  exact hstarts

theorem Reaches.append {rest : Bytes} (hreach : Reaches src state rest)
    (hcloses : EndsClosed rest) (hcalls : state.ClosesCalls) (more : Bytes) :
    Reaches (src ++ more) state (rest ++ more) := by
  induction hreach with
  | start => exact .start
  | @step state b tail kind count hreach hnext hcut ih =>
      have htail : EndsClosed tail := hcloses.trans (List.drop_suffix count tail)
      have hlt : count < tail.length := by
        simpa using hcloses.ne_nil
      rw [ClosesCalls, toList_push_segments] at hcalls
      have hearlier : Reaches (src ++ more) state (b :: (tail ++ more)) :=
        ih (htail.trans (List.suffix_cons b tail))
          fun segment hmem => hcalls segment (List.mem_append_left _ hmem)
      have hsegment := (hreach.nextSegment hnext).append hreach.drop_offset.1
        (hcalls ⟨kind, b, tail.take count⟩ (by simp)) hcloses more
      have hstep := hearlier.step (hsegment.next_eq hearlier.drop_offset.1)
        (checkCut_append hcut hlt more)
      rwa [List.take_append_of_le_length hlt.le,
        List.drop_append_of_le_length hlt.le] at hstep

end

end SweepState
end LogSweep
