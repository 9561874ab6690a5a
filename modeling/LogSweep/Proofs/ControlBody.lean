import LogSweep.Proofs.CodeTokens
import LogSweep.Proofs.StatementDeletion
import LogSweep.Proofs.DeletedCall

/-!
# Bodies of control-flow statements

A call without braces around it that is the body of a control-flow statement
has to stay.  The sweep knows it by the tokens before: `else`, `do`, or a group
of parentheses behind one of the words that a head follows.  The heads of a
state are those of its tokens, and tokens between matching parentheses leave
them as they are; so the word in front of a group decides, whatever the group
holds.  Of `for await` the sweep sees the second word only.
-/

namespace LogSweep

open Byte Bytes

namespace Segment

/-- Whether it is one of these words. -/
def isWordOf (words : List Bytes) (segment : Segment) : Bool :=
  match segment.kind with
  | .word | .kept _ _ => decide (segment.bytes ∈ words)
  | _ => false

/-- Whether it is this byte, as a token that is no word. -/
def isMark (b : UInt8) (segment : Segment) : Bool :=
  match segment.kind with
  | .punctuation => segment.first == b
  | _ => false

theorem isMark_iff {b : UInt8} {segment : Segment} :
    segment.isMark b = true ↔
      segment.kind = .punctuation ∧ segment.first = b := by
  rw [isMark]
  cases segment.kind <;> simp

theorem isWordOf_eq_false_of_isMark {b : UInt8} {segment : Segment}
    (hmark : segment.isMark b = true) (words : List Bytes) :
    segment.isWordOf words = false := by
  simp [isWordOf, (isMark_iff.mp hmark).1]

theorem isWordOf_of_singleton {word : Bytes} {segment : Segment}
    (hword : segment.isWordOf [word] = true) (words : List Bytes) :
    segment.isWordOf words = decide (word ∈ words) := by
  unfold isWordOf at hword ⊢
  cases hkind : segment.kind <;> simp_all

theorem isMark_eq_false_of_isMark {b c : UInt8} {segment : Segment}
    (hmark : segment.isMark b = true) (hne : b ≠ c) :
    segment.isMark c = false := by
  obtain ⟨hkind, hfirst⟩ := isMark_iff.mp hmark
  simp [isMark, hkind, hfirst, hne]

end Segment

/-! ## Groups -/

/-- Tokens in which all parentheses match. -/
inductive Nested : List Segment → Prop where
  | nil : Nested []
  | single {token : Segment} :
      token.isMark openParen = false → token.isMark closeParen = false →
      Nested [token]
  | append {first second : List Segment} :
      Nested first → Nested second → Nested (first ++ second)
  | group {opening closing : Segment} {inner : List Segment} :
      opening.isMark openParen = true → closing.isMark closeParen = true →
      Nested inner → Nested (opening :: inner ++ [closing])

def EndsInWord (words : List Bytes) (tokens : List Segment) : Prop :=
  ∃ before word, tokens = before ++ [word] ∧ word.isWordOf words = true

/-- These tokens are a group of matching parentheses behind others. -/
def EndsInGroup (before tokens : List Segment) : Prop :=
  ∃ opening inner closing,
    tokens = before ++ (opening :: inner ++ [closing]) ∧
      opening.isMark openParen = true ∧ Nested inner ∧
      closing.isMark closeParen = true

/-- A control-flow statement is complete but for its body. -/
def ExpectsBody (tokens : List Segment) : Prop :=
  EndsInWord bodyKeywords tokens ∨
    ∃ before, EndsInGroup before tokens ∧ EndsInWord headKeywords before

/-- A loop `for await (…)` is complete but for its body. -/
def ExpectsAwaitBody (tokens : List Segment) : Prop :=
  ∃ before word, EndsInGroup (before ++ [word]) tokens ∧
    word.isWordOf [ofString "await"] = true ∧
    EndsInWord [ofString "for"] before

/-! ## What the tokens leave open -/

/-- Whether the latest of these tokens, which come latest first, is one of these
words. -/
def lastIsWord (words : List Bytes) : List Segment → Bool
  | [] => false
  | token :: _ => token.isWordOf words

/-- The parentheses that these tokens, which come latest first, leave open. -/
def openHeads : List Segment → List Bool
  | [] => []
  | token :: earlier =>
    if token.isMark openParen then
      lastIsWord headKeywords earlier :: openHeads earlier
    else if token.isMark closeParen then (openHeads earlier).tail
    else openHeads earlier

/-- Whether the latest of these tokens, which come latest first, completes a
control-flow statement but for its body. -/
def completesHead : List Segment → Bool
  | [] => false
  | token :: earlier =>
    token.isWordOf bodyKeywords ||
      token.isMark closeParen && (openHeads earlier).head? == some true

theorem openHeads_reverse_nested {inner : List Segment} (hinner : Nested inner)
    (earlier : List Segment) :
    openHeads (inner.reverse ++ earlier) = openHeads earlier := by
  induction hinner generalizing earlier with
  | nil => rfl
  | single hopen hclose => simp [openHeads, hopen, hclose]
  | append _ _ ihfirst ihsecond =>
      rw [List.reverse_append, List.append_assoc, ihsecond, ihfirst]
  | @group opening closing inner hopening hclosing _ ih =>
      have hother := Segment.isMark_eq_false_of_isMark hclosing
        (show closeParen ≠ openParen by decide)
      have hreverse : (opening :: inner ++ [closing]).reverse ++ earlier =
          closing :: (inner.reverse ++ opening :: earlier) := by
        simp
      rw [hreverse, openHeads, hother, hclosing, ih, openHeads, hopening]
      simp

/-- Behind a group, the word in front of it decides. -/
theorem EndsInGroup.completesHead_eq {before tokens : List Segment}
    (hgroup : EndsInGroup before tokens) :
    completesHead tokens.reverse =
      lastIsWord headKeywords before.reverse := by
  obtain ⟨opening, inner, closing, rfl, hopening, hinner, hclosing⟩ := hgroup
  have hreverse : (before ++ (opening :: inner ++ [closing])).reverse =
      closing :: (inner.reverse ++ opening :: before.reverse) := by
    simp
  rw [hreverse, completesHead, openHeads_reverse_nested hinner, openHeads,
    Segment.isWordOf_eq_false_of_isMark hclosing, hclosing, hopening]
  cases lastIsWord headKeywords before.reverse <;> rfl

theorem EndsInWord.lastIsWord {words : List Bytes} {tokens : List Segment}
    (hends : EndsInWord words tokens) :
    lastIsWord words tokens.reverse = true := by
  obtain ⟨before, word, rfl, hword⟩ := hends
  simpa [LogSweep.lastIsWord] using hword

theorem ExpectsBody.completesHead {tokens : List Segment}
    (hexpects : ExpectsBody tokens) : completesHead tokens.reverse = true := by
  rcases hexpects with ⟨before, word, rfl, hword⟩ | ⟨before, hgroup, hword⟩
  · simp [LogSweep.completesHead, hword]
  · rw [hgroup.completesHead_eq]
    exact hword.lastIsWord

theorem ExpectsAwaitBody.completesHead_eq_false {tokens : List Segment}
    (hexpects : ExpectsAwaitBody tokens) :
    completesHead tokens.reverse = false := by
  obtain ⟨before, word, hgroup, hword, -⟩ := hexpects
  rw [hgroup.completesHead_eq, List.reverse_append, List.reverse_singleton,
    List.singleton_append, LogSweep.lastIsWord,
    Segment.isWordOf_of_singleton hword]
  decide

theorem Role.ofWord_eq_headKeyword_iff {word : Bytes} :
    Role.ofWord word = .headKeyword ↔ word ∈ headKeywords := by
  unfold Role.ofWord
  split_ifs <;> simp_all

theorem Role.ofWord_eq_beforeBody_iff {word : Bytes} :
    Role.ofWord word = .beforeBody ↔ word ∈ bodyKeywords := by
  have hapart : ∀ keyword ∈ bodyKeywords, keyword ∉ headKeywords := by
    decide
  unfold Role.ofWord
  split_ifs with hhead hbody
  · simp only [false_iff]
    exact fun hbody => hapart word hbody hhead
  · simp [hbody]
  · simp [hbody]

namespace SweepState

/-- The state knows what its tokens leave open and what they complete. -/
structure TracksHeads (state : SweepState) : Prop where
  heads : state.heads = openHeads state.tokens.reverse
  keyword :
    state.role = .headKeyword ↔
      lastIsWord headKeywords state.tokens.reverse = true
  body :
    state.role = .beforeBody ↔ completesHead state.tokens.reverse = true

theorem initial_tracksHeads : initial.TracksHeads := by
  constructor <;> decide

section

variable {state : SweepState}

theorem TracksHeads.push_of_not_isToken {segment : Segment}
    (htracks : state.TracksHeads) (htoken : segment.isToken = false) :
    (state.push segment).TracksHeads := by
  obtain ⟨-, hrole, hheads⟩ := SweepState.push_of_not_isToken htoken state
  have htokens := tokens_push_of_not_isToken htoken state
  constructor
  · rw [hheads, htokens, htracks.heads]
  · rw [hrole, htokens, htracks.keyword]
  · rw [hrole, htokens, htracks.body]

/-- A word, the receiver of a call that stays among them. -/
theorem TracksHeads.push_word {segment : Segment}
    (htracks : state.TracksHeads)
    (hkind : segment.kind = .word ∨ ∃ call obstacle,
      segment.kind = .kept call obstacle) :
    (state.push segment).TracksHeads := by
  have htoken : segment.isToken = true := by
    rcases hkind with hkind | ⟨call, obstacle, hkind⟩ <;>
      simp [Segment.isToken, hkind]
  have hmark : ∀ b, segment.isMark b = false := by
    rcases hkind with hkind | ⟨call, obstacle, hkind⟩ <;>
      simp [Segment.isMark, hkind]
  have hword : ∀ words, segment.isWordOf words =
      decide (segment.bytes ∈ words) := by
    rcases hkind with hkind | ⟨call, obstacle, hkind⟩ <;>
      simp [Segment.isWordOf, hkind]
  have hrole : (state.push segment).role = .ofWord segment.bytes ∧
      (state.push segment).heads = state.heads := by
    rcases hkind with hkind | ⟨call, obstacle, hkind⟩ <;>
      simp [push, emit, hkind, writeToken, write]
  constructor
  · rw [hrole.2, tokens_push_of_isToken htoken, htracks.heads]
    simp [openHeads, hmark]
  · rw [hrole.1, tokens_push_of_isToken htoken,
      Role.ofWord_eq_headKeyword_iff]
    simp [lastIsWord, hword]
  · rw [hrole.1, tokens_push_of_isToken htoken, Role.ofWord_eq_beforeBody_iff]
    simp [completesHead, hword, hmark]

theorem TracksHeads.push_punctuation {segment : Segment}
    (htracks : state.TracksHeads) (hkind : segment.kind = .punctuation) :
    (state.push segment).TracksHeads := by
  have htoken : segment.isToken = true := by simp [Segment.isToken, hkind]
  have hword : ∀ words, segment.isWordOf words = false := by
    simp [Segment.isWordOf, hkind]
  have hmark : ∀ b, segment.isMark b = (segment.first == b) := by
    simp [Segment.isMark, hkind]
  have hrole : (state.push segment).role =
        state.punctuationRole segment.first ∧
      (state.push segment).heads = state.headsAfter segment.first := by
    simp [push, emit, hkind, writePunctuation, writeToken, write]
  have hkeyword : (state.role == .headKeyword) =
      lastIsWord headKeywords state.tokens.reverse := by
    rw [Bool.eq_iff_iff, beq_iff_eq]
    exact htracks.keyword
  constructor
  · rw [hrole.2, tokens_push_of_isToken htoken, headsAfter, htracks.heads,
      hkeyword]
    simp only [List.reverse_append, List.reverse_singleton,
      List.singleton_append, openHeads, hmark, beq_iff_eq]
  · rw [hrole.1, tokens_push_of_isToken htoken, punctuationRole]
    simp only [List.reverse_append, List.reverse_singleton,
      List.singleton_append, lastIsWord, hword]
    split_ifs <;> simp
  · rw [hrole.1, tokens_push_of_isToken htoken, punctuationRole,
      htracks.heads]
    simp only [List.reverse_append, List.reverse_singleton,
      List.singleton_append, completesHead, hword, hmark, Bool.false_or,
      Bool.and_eq_true, beq_iff_eq]
    split_ifs with hbody hsign <;> simp [hbody]

theorem TracksHeads.push_literal {segment : Segment}
    (htracks : state.TracksHeads) (hkind : segment.kind = .literal) :
    (state.push segment).TracksHeads := by
  have htoken : segment.isToken = true := by simp [Segment.isToken, hkind]
  have hrole : (state.push segment).role = .plain ∧
      (state.push segment).heads = state.heads := by
    simp [push, emit, hkind, writeToken, write]
  constructor
  · rw [hrole.2, tokens_push_of_isToken htoken, htracks.heads]
    simp [openHeads, Segment.isMark, hkind]
  · rw [hrole.1, tokens_push_of_isToken htoken]
    simp [lastIsWord, Segment.isWordOf, hkind]
  · rw [hrole.1, tokens_push_of_isToken htoken]
    simp [completesHead, Segment.isWordOf, Segment.isMark, hkind]

end

theorem Reaches.tracksHeads {src : Bytes} {state : SweepState} {rest : Bytes}
    (hreach : Reaches src state rest) : state.TracksHeads := by
  induction hreach with
  | start => exact initial_tracksHeads
  | @step state b tail kind more _ _ _ ih =>
      cases kind with
      | space => exact ih.push_of_not_isToken rfl
      | comment => exact ih.push_of_not_isToken rfl
      | removed call endsLine terminator => exact ih.push_of_not_isToken rfl
      | literal => exact ih.push_literal rfl
      | punctuation => exact ih.push_punctuation rfl
      | word => exact ih.push_word (Or.inl rfl)
      | kept call obstacle => exact ih.push_word (Or.inr ⟨_, _, rfl⟩)

theorem Reaches.role_of_expectsBody {src : Bytes} {state : SweepState}
    {rest : Bytes} (hreach : Reaches src state rest)
    (hexpects : ExpectsBody state.tokens) : state.role = .beforeBody :=
  hreach.tracksHeads.body.mpr hexpects.completesHead

theorem Reaches.role_of_expectsAwaitBody {src : Bytes} {state : SweepState}
    {rest : Bytes} (hreach : Reaches src state rest)
    (hexpects : ExpectsAwaitBody state.tokens) : state.role ≠ .beforeBody := by
  intro hbody
  have hcompletes := hreach.tracksHeads.body.mp hbody
  rw [hexpects.completesHead_eq_false] at hcompletes
  simp at hcompletes

section

variable {text : String} {state : SweepState} {rest : Bytes} {method : Method}
  {opening : Nat} {report : Report}

/-- A call that is met is removed if it is closed and judged to be a statement
of its own, and only then. -/
theorem Reaches.mem_removed_iff_of_meetsCall
    (hreach : Reaches (ofString text) state rest)
    (hcall : state.MeetsCall rest method opening)
    (hreport : sweepText text = .ok report) :
    state.callHere method ∈ report.removed ↔
      ∃ closing ending,
        closingFrom (ofString text) opening openParen closeParen =
          .found closing ∧
        judge state.last state.role state.onNewLine
          ((ofString text).drop (closing + 1)) = .ok ending := by
  obtain ⟨final, report', hsweep, hfinal, hreport', -, hfindings⟩ :=
    exists_sweepText text
  obtain rfl := Except.ok.inj (hreport.symm.trans hreport')
  obtain ⟨b, tail, rfl⟩ := hcall.exists_cons
  have hrest := hreach.drop_offset.1
  -- a call that stays has its own segment where the statement would start
  have hkept : ∀ obstacle more, NextSegment (ofString text) state b tail
      (.kept (state.callHere method) obstacle) more →
      state.callHere method ∉ report.removed := by
    intro obstacle more hsegment hmem
    obtain ⟨later, hlater⟩ := hreach.exists_later hsweep hsegment
    obtain ⟨before, segment, after, hsplit, hdeletes⟩ :=
      (mem_removed_iff hfindings).mp hmem
    obtain ⟨other, met, opening', closing, ending, hother, hbefore, -⟩ :=
      hfinal.exists_deletesCall hsplit hdeletes
    have hstart : other.offset = state.offset :=
      (congrArg Call.start hother.call_eq).symm
    rw [hother.reaches.offset_eq, hreach.offset_eq, hbefore] at hstart
    have hsame := segment_eq_of_start_eq hsplit hlater hstart
    obtain ⟨endsLine, terminator, hkind⟩ := hdeletes
    rw [hsame] at hkind
    simp at hkind
  rcases hcall.exists_nextSegment hrest with ⟨hunclosed, hsegment⟩ |
    ⟨closing, hfound, ⟨obstacle, hjudge, hsegment⟩ |
      ⟨ending, terminator, more, hjudge, hsegment⟩⟩
  · refine ⟨fun hmem => absurd hmem (hkept _ _ hsegment), ?_⟩
    rintro ⟨closing, ending, hfound, -⟩
    simp [hunclosed] at hfound
  · refine ⟨fun hmem => absurd hmem (hkept _ _ hsegment), ?_⟩
    rintro ⟨closing', ending, hfound', hjudge'⟩
    obtain rfl : closing = closing' := by simpa [hfound] using hfound'
    simp [hjudge] at hjudge'
  · refine ⟨fun _ => ⟨closing, ending, hfound, hjudge⟩, fun _ => ?_⟩
    obtain ⟨later, hlater⟩ := hreach.exists_later hsweep hsegment
    exact (mem_removed_iff hfindings).mpr
      ⟨_, _, later, hlater, ending.endsLine, terminator, rfl⟩

theorem Reaches.mem_kept_of_role (hreach : Reaches (ofString text) state rest)
    (hcall : state.MeetsCall rest method opening)
    (hreport : sweepText text = .ok report) (hrole : state.role = .beforeBody) :
    (state.callHere method, .soleBody) ∈ report.kept ∨
      closingFrom (ofString text) opening openParen closeParen = .unclosed ∧
        (state.callHere method, .unclosed) ∈ report.kept := by
  obtain ⟨final, report', hsweep, hfinal, hreport', -, hfindings⟩ :=
    exists_sweepText text
  obtain rfl := Except.ok.inj (hreport.symm.trans hreport')
  obtain ⟨b, tail, rfl⟩ := hcall.exists_cons
  have hjudged : ∀ after, judge state.last state.role state.onNewLine after =
      .error .soleBody := fun after => by rw [judge, if_pos hrole]
  rcases hcall.exists_nextSegment hreach.drop_offset.1 with
    ⟨hunclosed, hsegment⟩ | ⟨closing, hfound, ⟨obstacle, hjudge, hsegment⟩ |
      ⟨ending, terminator, more, hjudge, hsegment⟩⟩
  · obtain ⟨later, hlater⟩ := hreach.exists_later hsweep hsegment
    exact Or.inr ⟨hunclosed, mem_kept_of_segment hfindings hlater rfl⟩
  · obtain ⟨later, hlater⟩ := hreach.exists_later hsweep hsegment
    rw [hjudged, Except.error.injEq] at hjudge
    rw [← hjudge] at hlater
    exact Or.inl (mem_kept_of_segment hfindings hlater rfl)
  · simp [hjudged] at hjudge

/-- Behind the head of a `for await` loop a call is judged like one behind any
other group of parentheses. -/
theorem Reaches.judge_of_expectsAwaitBody
    (hreach : Reaches (ofString text) state rest)
    (hexpects : ExpectsAwaitBody state.tokens) (after : Bytes) :
    (∃ ending, judge state.last state.role state.onNewLine after =
        .ok ending) ↔
      state.onNewLine = true ∧ (Ending.read after).complete = true := by
  have hrole := hreach.role_of_expectsAwaitBody hexpects
  have hlast : state.last = some closeParen := by
    obtain ⟨before, word, ⟨opening, inner, closing, htokens, -, -, hclosing⟩,
      -⟩ := hexpects
    obtain ⟨hkind, hfirst⟩ := Segment.isMark_iff.mp hclosing
    have hcode : closing.lastCode = closeParen := by
      simp [Segment.lastCode, hkind, hfirst]
    have hconcat : codeTokens state.segments.toList =
        (before ++ [word] ++ (opening :: inner)) ++ [closing] := by
      rw [← tokens, htokens, ← List.append_assoc]
    rw [hreach.last_eq, lastCode?, hconcat, List.getLast?_concat,
      Option.map_some, hcode]
  have hstarts : startsStatement (some closeParen) state.role state.onNewLine =
      state.onNewLine := by
    have hconnective : isConnective closeParen = false := by decide
    have hends : (closeParen == semicolon || closeParen == openBrace ||
        closeParen == closeBrace) = false := by decide
    simp only [startsStatement, hconnective, hends]
    simp
  simp only [judge_eq_ok_iff, hlast, hstarts, ne_eq, hrole, not_false_eq_true,
    true_and, exists_and_left, exists_eq', and_true]

end

end SweepState

open SweepState

/-- No call is deleted that is the body of a control-flow statement without
braces; it is reported as kept, with that reason unless its parenthesis is
never closed.  The head of a `for await` loop is not known as one: behind it a
call that is closed is removed if and only if it stands on a new line and its
statement ends. -/
theorem sweepText_keeps_bodies (text : String) :
    ∃ report, sweepText text = .ok report ∧
      (∀ call ∈ report.removed, ∃ state rest opening closing ending,
        DeletesCall (ofString text) state rest call opening closing ending ∧
          ¬ ExpectsBody state.tokens) ∧
      (∀ state rest method opening, Reaches (ofString text) state rest →
        state.MeetsCall rest method opening → ExpectsBody state.tokens →
        (state.callHere method, .soleBody) ∈ report.kept ∨
          closingFrom (ofString text) opening openParen closeParen =
              .unclosed ∧
            (state.callHere method, .unclosed) ∈ report.kept) ∧
      ∀ state rest method opening, Reaches (ofString text) state rest →
        state.MeetsCall rest method opening → ExpectsAwaitBody state.tokens →
        (state.callHere method ∈ report.removed ↔
          ∃ closing,
            closingFrom (ofString text) opening openParen closeParen =
              .found closing ∧
            state.onNewLine = true ∧
            (Ending.read ((ofString text).drop (closing + 1))).complete =
              true) := by
  obtain ⟨-, report, -, -, hreport, -, -⟩ := exists_sweepText text
  refine ⟨report, hreport, ?_, ?_, ?_⟩
  · intro call hmem
    obtain ⟨state, rest, opening, closing, ending, hdeletes⟩ :=
      exists_deletesCall hreport hmem
    refine ⟨state, rest, opening, closing, ending, hdeletes, fun hexpects => ?_⟩
    exact (judge_eq_ok_iff.mp hdeletes.judged).1
      (hdeletes.reaches.role_of_expectsBody hexpects)
  · intro state rest method opening hreach hcall hexpects
    exact hreach.mem_kept_of_role hcall hreport
      (hreach.role_of_expectsBody hexpects)
  · intro state rest method opening hreach hcall hexpects
    rw [hreach.mem_removed_iff_of_meetsCall hcall hreport]
    simp only [exists_and_left, hreach.judge_of_expectsAwaitBody hexpects]

/-- The call is the body of the loop; once it is deleted, the next statement
is. -/
theorem sweepText_removes_for_await_body :
    ∃ state rest opening closing ending,
      sweepText "for await (x of y)\n  console.log(x);\nz();\n" =
        .ok ⟨"for await (x of y)\nz();\n", [.removed ⟨.log, 21, 2⟩]⟩ ∧
      DeletesCall (ofString "for await (x of y)\n  console.log(x);\nz();\n")
        state rest ⟨.log, 21, 2⟩ opening closing ending ∧
      ExpectsAwaitBody state.tokens := by
  obtain ⟨final, -, hsweep, hreach, -⟩ :=
    exists_sweepText "for await (x of y)\n  console.log(x);\nz();\n"
  have hparts : (sweep
      (ofString "for await (x of y)\n  console.log(x);\nz();\n")).map
      (fun final => (final.segments.toList[12]?.map Segment.kind,
        codeTokens (final.segments.toList.take 12))) =
      .ok (some (.removed ⟨.log, 21, 2⟩ true 0),
        [⟨.word, 102, ofString "or"⟩, ⟨.word, 97, ofString "wait"⟩,
          ⟨.punctuation, openParen, []⟩, ⟨.word, 120, []⟩,
          ⟨.word, 111, ofString "f"⟩, ⟨.word, 121, []⟩,
          ⟨.punctuation, closeParen, []⟩]) := by
    decide +kernel
  rw [hsweep] at hparts
  simp only [Except.map, Except.ok.injEq, Prod.mk.injEq] at hparts
  obtain ⟨hkind, htokens⟩ := hparts
  obtain ⟨segment, hget, hkind⟩ := Option.map_eq_some_iff.mp hkind
  obtain ⟨hlt, hsegment⟩ := List.getElem?_eq_some_iff.mp hget
  have hsplit : final.segments.toList = final.segments.toList.take 12 ++
      segment :: final.segments.toList.drop 13 := by
    rw [← hsegment, ← List.drop_eq_getElem_cons hlt, List.take_append_drop]
  obtain ⟨state, rest, opening, closing, ending, hdeletes, hbefore, -⟩ :=
    hreach.exists_deletesCall hsplit ⟨true, 0, hkind⟩
  refine ⟨state, rest, opening, closing, ending, by decide +kernel, hdeletes,
    ?_⟩
  have hinner : Nested [⟨.word, 120, []⟩, ⟨.word, 111, ofString "f"⟩,
      ⟨.word, 121, []⟩] :=
    .append (.single (by decide) (by decide))
      (.append (.single (by decide) (by decide))
        (.single (by decide) (by decide)))
  rw [tokens, hbefore, htokens]
  exact ⟨[⟨.word, 102, ofString "or"⟩], ⟨.word, 97, ofString "wait"⟩,
    ⟨⟨.punctuation, openParen, []⟩, _, ⟨.punctuation, closeParen, []⟩, rfl,
      by decide, hinner, by decide⟩, by decide,
    [], ⟨.word, 102, ofString "or"⟩, rfl, by decide⟩

end LogSweep
