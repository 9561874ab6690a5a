import Mathlib.Algebra.Group.Nat.Even
import LogSweep.Proofs.HeldWhitespace
import LogSweep.Proofs.LiteralEnds

/-!
# Runs of signs

Read from the left by longest match, a run of the same sign ends in an increment
or decrement if its length is even, and in a sign of its own if it is odd.  A
sweep looks at two bytes only, so it knows the two cases apart for a single sign
and for even runs; for longer odd ones it does not.

Two equal signs side by side in the output are two tokens there: a comment or an
unclosed literal that ends in a sign ends its line, or the text.
-/

namespace LogSweep

open Byte Bytes

/-- Whether the byte is a plus or a minus. -/
def isSign (b : UInt8) : Bool :=
  b == plus || b == minus

theorem isSign_cases {b : UInt8} (hsign : isSign b = true) : b = plus ∨ b = minus := by
  simpa [isSign] using hsign

theorem isWhitespace_of_isSign {b : UInt8} (hsign : isSign b = true) :
    isWhitespace b = false := by
  rcases isSign_cases hsign with rfl | rfl <;> decide

theorem isWord_of_isSign {b : UInt8} (hsign : isSign b = true) : isWord b = false := by
  rcases isSign_cases hsign with rfl | rfl <;> decide

theorem isSign_of_isWord {b : UInt8} (hb : isWord b = true) : isSign b = false := by
  by_contra hsign
  rw [isWord_of_isSign (by simpa using hsign)] at hb
  cases hb

theorem length_rtakeWhile_pos_iff (bytes : Bytes) (b : UInt8) :
    0 < (bytes.rtakeWhile (· == b)).length ↔ bytes.getLast? = some b := by
  rcases List.eq_nil_or_concat bytes with rfl | ⟨before, c, rfl⟩
  · simp
  · rw [List.concat_eq_append, List.rtakeWhile_concat, List.getLast?_concat]
    by_cases hc : c = b <;> simp [hc]

theorem Role.ofWord_ne_increment (word : Bytes) : Role.ofWord word ≠ .increment := by
  unfold ofWord
  split_ifs <;> simp

theorem isSign_of_closesLiteral {b : UInt8} (hb : closesLiteral b = true) : isSign b = false := by
  by_contra hsign
  rcases isSign_cases (by simpa using hsign) with rfl | rfl <;> cases hb

/-- Behind a literal or comment that ends in a sign the line ends, or the text. -/
theorem EndsLiteral.eq_newline {b c d : UInt8} {inside beyond : Bytes}
    (hends : EndsLiteral inside (d :: beyond)) (hlast : (b :: inside).getLast? = some c)
    (hsign : isSign c = true) : d = newline := by
  cases hends with
  | atLineEnd hline => exact hline d rfl
  | @closed before e hinside he =>
      rw [hinside, ← List.cons_append, List.getLast?_concat, Option.some.injEq] at hlast
      rw [← hlast, isSign_of_closesLiteral he] at hsign
      cases hsign
  | @flagged before e hinside he =>
      rw [hinside, ← List.cons_append, List.getLast?_concat, Option.some.injEq] at hlast
      rw [← hlast, isSign_of_isWord he] at hsign
      cases hsign

namespace SweepState

/-- How many copies of this byte stand at the end of the output up to its last
token. -/
def signRun (state : SweepState) (b : UInt8) : Nat :=
  (state.code.rtakeWhile (· == b)).length

/-! ## Signs in the output -/

section

variable {src rest tail : Bytes} {state : SweepState} {b c : UInt8}

theorem getLast?_push_of_isCopied {segment : Segment} (hcopied : segment.isCopied = true)
    (hfits : segment.FitsKind) (state : SweepState) :
    (state.push segment).output.getLast? = segment.bytes.getLast? := by
  rw [output_push_of_isCopied hcopied hfits,
    List.getLast?_append_of_ne_nil _ (by simp [Segment.bytes])]

/-- The last byte of an output that a sign comes after, or any other byte but
white space, is the last token if it is a sign. -/
def SignEndsCode (state : SweepState) (rest : Bytes) : Prop :=
  ∀ b c tail, rest = c :: tail → isWhitespace c = false → isSign b = true →
    state.output.getLast? = some b → state.last = some b ∧ state.pending = []

theorem SignEndsCode.push_removed {call : Call} {endsLine : Bool} {terminator more : Nat}
    (hends : state.SignEndsCode (b :: tail)) (hrest : src.drop state.offset = b :: tail)
    (hsegment : NextSegment src state b tail (.removed call endsLine terminator) more)
    (hb : isWhitespace b = false) :
    (state.push ⟨.removed call endsLine terminator, b, tail.take more⟩).SignEndsCode
      (tail.drop more) := by
  intro sign c beyond hbeyond hspace hsign hlast
  cases endsLine with
  | false =>
      have hbefore := hends sign b tail rfl hb hsign
      simpa [SweepState.push, emit] using
        hbefore (by simpa [SweepState.push, emit, SweepState.output] using hlast)
  | true =>
      have hlast : state.written.toList.getLast? = some sign := by
        simpa [SweepState.push, emit, SweepState.output] using hlast
      have hwritten : state.written.isEmpty = false := by
        by_contra hempty
        have hnone : state.written = #[] := by simpa using hempty
        simp [hnone] at hlast
      have hline := hsegment.atLineEnd_of_removed hrest rfl hwritten
      have hbreak : c = newline ∨ c = carriageReturn := by
        simpa [hbeyond, atLineEnd] using hline
      rcases hbreak with rfl | rfl <;> cases hspace

theorem SignEndsCode.push_opened {kind : Segment.Kind} {literal : Literal}
    (hcopied : (Segment.mk kind b (tail.take literal.more)).isCopied = true)
    (hfits : (Segment.mk kind b (tail.take literal.more)).FitsKind)
    (hopened : Literal.opened? state.last b tail = some literal) :
    (state.push ⟨kind, b, tail.take literal.more⟩).SignEndsCode
      (tail.drop literal.more) := by
  intro sign c beyond hbeyond hspace hsign hlast
  rw [getLast?_push_of_isCopied hcopied hfits] at hlast
  have hends := Literal.opened?_endsLiteral hopened
  rw [hbeyond] at hends
  have hnewline := hends.eq_newline hlast hsign
  rw [hnewline] at hspace
  cases hspace

theorem SignEndsCode.push_word {segment : Segment}
    (hkind : segment.kind = .word ∨ ∃ call obstacle, segment.kind = .kept call obstacle)
    (hfits : segment.FitsKind) : (state.push segment).SignEndsCode rest := by
  intro sign c beyond _ _ hsign hlast
  have hcopied : segment.isCopied = true := by
    rcases hkind with hkind | ⟨call, obstacle, hkind⟩ <;> simp [Segment.isCopied, hkind]
  rw [getLast?_push_of_isCopied hcopied hfits] at hlast
  have hword := hfits.word hkind sign (List.mem_of_getLast? hlast)
  rw [isWord_of_isSign hsign] at hword
  cases hword

theorem SignEndsCode.push_punctuation {segment : Segment} (hkind : segment.kind = .punctuation)
    (hfits : segment.FitsKind) : (state.push segment).SignEndsCode rest := by
  intro sign c beyond _ _ _ hlast
  have hcopied : segment.isCopied = true := by simp [Segment.isCopied, hkind]
  rw [getLast?_push_of_isCopied hcopied hfits, Segment.bytes, hfits.punctuation hkind,
    List.getLast?_singleton] at hlast
  refine ⟨?_, (push_of_isCopied hcopied hfits state).2⟩
  rw [← hlast]
  simp [SweepState.push, emit, hkind, writePunctuation, writeToken]

theorem SignEndsCode.push_space {segment : Segment} (hkind : segment.kind = .space)
    (hfits : segment.FitsKind) : (state.push segment).SignEndsCode rest := by
  intro sign c beyond _ _ hsign hlast
  have houtput : (state.push segment).output = state.output ++ segment.bytes := by
    simp [SweepState.push, emit, hkind, SweepState.output]
  rw [houtput, List.getLast?_append_of_ne_nil _ (by simp [Segment.bytes])] at hlast
  have hspace := hfits.space hkind sign (List.mem_of_getLast? hlast)
  rw [isWhitespace_of_isSign hsign] at hspace
  cases hspace

theorem SignEndsCode.push {kind : Segment.Kind} {more : Nat}
    (hends : state.SignEndsCode (b :: tail)) (hrest : src.drop state.offset = b :: tail)
    (hsegment : NextSegment src state b tail kind more) :
    (state.push ⟨kind, b, tail.take more⟩).SignEndsCode (tail.drop more) := by
  have hfits := hsegment.fitsKind
  cases hsegment with
  | literal hopened => exact .push_opened rfl hfits hopened
  | comment hopened => exact .push_opened rfl hfits hopened
  | space => exact .push_space rfl hfits
  | punctuation => exact .push_punctuation rfl hfits
  | word => exact .push_word (Or.inl rfl) hfits
  | unclosed => exact .push_word (Or.inr ⟨_, _, rfl⟩) hfits
  | refused => exact .push_word (Or.inr ⟨_, _, rfl⟩) hfits
  | removed hb hcall hfound hjudge =>
      refine hends.push_removed hrest (.removed hb hcall hfound hjudge) ?_
      by_contra hspace
      rw [isWord_of_isWhitespace (by simpa using hspace)] at hb
      cases hb

theorem Reaches.signEndsCode (hreach : Reaches src state rest) : state.SignEndsCode rest := by
  induction hreach with
  | start =>
      intro sign c beyond _ _ _ hlast
      simp [initial, SweepState.output] at hlast
  | step hreach hnext _ ih => exact ih.push hreach.drop_offset.1 (hreach.nextSegment hnext)

/-- Where the next byte is a sign, the sweep sees whether the output ends in the
same one. -/
theorem Reaches.doublesSign_iff (hreach : Reaches src state (b :: tail))
    (hsign : isSign b = true) :
    state.doublesSign b = true ↔ state.output.getLast? = some b := by
  constructor
  · intro hdoubles
    simp only [doublesSign, Bool.and_eq_true, List.isEmpty_iff, beq_iff_eq] at hdoubles
    rcases hdoubles with ⟨⟨-, hpending⟩, hwritten⟩
    rw [SweepState.output, hpending, List.append_nil, Array.getLast?_toList, hwritten]
  · intro hlast
    rcases hreach.signEndsCode b b tail rfl (isWhitespace_of_isSign hsign) hsign hlast with
      ⟨hcode, hpending⟩
    rw [SweepState.output, hpending, List.append_nil, Array.getLast?_toList] at hlast
    have hsign : (b == plus || b == minus) = true := hsign
    simp [doublesSign, hsign, hcode, hpending, hlast]

/-! ## The run at the end of the code -/

/-- What a sweep knows of the signs at the end of its code: whether there are two
of them. -/
structure CountsSigns (state : SweepState) : Prop where
  ofSign : ∀ b, state.last = some b → isSign b = true →
    0 < state.signRun b ∧
      state.role = if 2 ≤ state.signRun b then .increment else .plain
  ofOther : (∀ b, state.last = some b → isSign b = false) → state.role ≠ .increment

theorem signRun_push_punctuation {segment : Segment} (hwrites : state.WritesSurviving)
    (hkind : segment.kind = .punctuation) (hfits : segment.FitsKind) :
    (state.push segment).signRun segment.first =
      (state.output.rtakeWhile (· == segment.first)).length + 1 := by
  have htoken : segment.isToken = true := by simp [Segment.isToken, hkind]
  rw [signRun, code_push_of_isToken hwrites htoken, Segment.bytes,
    hfits.punctuation hkind, List.rtakeWhile_concat_pos _ _ _ (by simp),
    List.length_append, List.length_singleton]

theorem CountsSigns.push_punctuation {segment : Segment} (hkind : segment.kind = .punctuation)
    (hfits : segment.FitsKind) (hreach : Reaches src state (segment.first :: tail)) :
    (state.push segment).CountsSigns := by
  have hlast : (state.push segment).last = some segment.first := by
    simp [SweepState.push, emit, hkind, writePunctuation, writeToken]
  have hrole : (state.push segment).role = state.punctuationRole segment.first := by
    simp [SweepState.push, emit, hkind, writePunctuation, writeToken]
  have hrun := signRun_push_punctuation hreach.writesSurviving hkind hfits
  constructor
  · intro c hc hsign
    obtain rfl : segment.first = c := Option.some.inj (hlast.symm.trans hc)
    have hparen : segment.first ≠ closeParen := by
      intro hparen
      rw [hparen] at hsign
      cases hsign
    have hdoubles : state.doublesSign segment.first = true ↔
        2 ≤ (state.push segment).signRun segment.first := by
      rw [hreach.doublesSign_iff hsign, ← length_rtakeWhile_pos_iff, hrun]
      omega
    refine ⟨hrun ▸ Nat.succ_pos _, ?_⟩
    rw [hrole, punctuationRole, if_neg fun hbody => hparen hbody.1]
    simp only [hdoubles]
  · intro hother
    have hsign : (segment.first == plus || segment.first == minus) = false :=
      hother segment.first hlast
    rw [hrole, punctuationRole, doublesSign, hsign]
    split_ifs <;> simp_all

/-- Behind a token of another kind no sign is the last code byte. -/
theorem countsSigns_of_not_isSign (hlast : ∀ b, state.last = some b → isSign b = false)
    (hrole : state.role ≠ .increment) : state.CountsSigns where
  ofSign := by
    intro b hb hsign
    rw [hlast b hb] at hsign
    cases hsign
  ofOther := fun _ => hrole

theorem CountsSigns.push_of_not_isToken {segment : Segment} (hcounts : state.CountsSigns)
    (htoken : segment.isToken = false) : (state.push segment).CountsSigns := by
  rcases SweepState.push_of_not_isToken htoken state with ⟨hlast, hrole, -⟩
  have hrun : ∀ b, (state.push segment).signRun b = state.signRun b := by
    intro b
    rw [signRun, code_push_of_not_isToken htoken]
    rfl
  constructor
  · intro b hb hsign
    rw [hrun, hrole]
    exact hcounts.ofSign b (hlast ▸ hb) hsign
  · intro hother
    rw [hrole]
    exact hcounts.ofOther fun b hb => hother b (hlast ▸ hb)

theorem countsSigns_push_of_word {segment : Segment}
    (hkind : segment.kind = .word ∨ ∃ call obstacle, segment.kind = .kept call obstacle)
    (hfits : segment.FitsKind) (state : SweepState) : (state.push segment).CountsSigns := by
  have hlast : (state.push segment).last = some segment.last ∧
      (state.push segment).role = .ofWord segment.bytes := by
    rcases hkind with hkind | ⟨call, obstacle, hkind⟩ <;>
      simp [SweepState.push, emit, hkind, writeToken]
  apply countsSigns_of_not_isSign
  · intro b hb
    obtain rfl : segment.last = b := Option.some.inj (hlast.1.symm.trans hb)
    exact isSign_of_isWord (hfits.word hkind _ List.getLastD_mem_cons)
  · rw [hlast.2]
    exact Role.ofWord_ne_increment segment.bytes

theorem countsSigns_push_literal {segment : Segment} (hkind : segment.kind = .literal)
    (state : SweepState) : (state.push segment).CountsSigns := by
  have hlast : (state.push segment).last = some valueByte ∧
      (state.push segment).role = .plain := by
    simp [SweepState.push, emit, hkind, writeToken]
  apply countsSigns_of_not_isSign
  · intro b hb
    obtain rfl : valueByte = b := Option.some.inj (hlast.1.symm.trans hb)
    decide
  · rw [hlast.2]
    simp

theorem CountsSigns.push {kind : Segment.Kind} {more : Nat} (hcounts : state.CountsSigns)
    (hreach : Reaches src state (b :: tail))
    (hsegment : NextSegment src state b tail kind more) :
    (state.push ⟨kind, b, tail.take more⟩).CountsSigns := by
  have hfits := hsegment.fitsKind
  cases hsegment with
  | space => exact hcounts.push_of_not_isToken rfl
  | comment => exact hcounts.push_of_not_isToken rfl
  | removed => exact hcounts.push_of_not_isToken rfl
  | literal => exact countsSigns_push_literal rfl state
  | punctuation => exact .push_punctuation rfl hfits hreach
  | word => exact countsSigns_push_of_word (Or.inl rfl) hfits state
  | unclosed => exact countsSigns_push_of_word (Or.inr ⟨_, _, rfl⟩) hfits state
  | refused => exact countsSigns_push_of_word (Or.inr ⟨_, _, rfl⟩) hfits state

theorem Reaches.countsSigns (hreach : Reaches src state rest) : state.CountsSigns := by
  induction hreach with
  | start => exact countsSigns_of_not_isSign (by simp [initial]) (by simp [initial])
  | step hreach hnext _ ih => exact ih.push hreach (hreach.nextSegment hnext)

/-- Behind a sign a statement starts only on a new line, and if the sign before is
the same. -/
theorem startsStatement_of_isSign (hsign : isSign b = true) (role : Role) (onNewLine : Bool) :
    startsStatement (some b) role onNewLine = true ↔
      onNewLine = true ∧ role = .increment := by
  have hends : (b == semicolon || b == openBrace || b == closeBrace) = false := by
    rcases isSign_cases hsign with rfl | rfl <;> decide
  have hconnective : isConnective b = true := by
    rcases isSign_cases hsign with rfl | rfl <;> decide
  simp only [startsStatement, hends, hconnective]
  simp

theorem CountsSigns.increment_iff (hcounts : state.CountsSigns) :
    state.role = .increment ↔
      ∃ b, state.last = some b ∧ isSign b = true ∧ 2 ≤ state.signRun b := by
  constructor
  · intro hrole
    by_contra hnone
    apply hcounts.ofOther ?_ hrole
    intro b hb
    by_contra hsign
    have hsign : isSign b = true := by simpa using hsign
    have hshort : ¬ 2 ≤ state.signRun b := fun hrun => hnone ⟨b, hb, hsign, hrun⟩
    have hplain := (hcounts.ofSign b hb hsign).2
    rw [if_neg hshort, hrole] at hplain
    cases hplain
  · rintro ⟨b, hb, hsign, hrun⟩
    rw [(hcounts.ofSign b hb hsign).2, if_pos hrun]

/-- The last token counts as an increment or decrement if the code ends in two
equal signs at least.  That is wrong for the odd runs from three signs on, whose
last sign stands for itself, and for no others.  Behind a single sign no
statement starts. -/
theorem Reaches.increment_iff_signRun (hreach : Reaches src state rest) :
    (state.role = .increment ↔
        ∃ b, state.last = some b ∧ isSign b = true ∧ 2 ≤ state.signRun b) ∧
      ∀ b, state.last = some b → isSign b = true →
        0 < state.signRun b ∧
          ((state.role = .increment ↔ Even (state.signRun b)) ↔
            ¬ (Odd (state.signRun b) ∧ 3 ≤ state.signRun b)) ∧
          (startsStatement state.last state.role state.onNewLine = true ↔
            state.onNewLine = true ∧ 2 ≤ state.signRun b) ∧
          (state.signRun b = 1 → ∀ after,
            judge state.last state.role state.onNewLine after = .error .midExpression) := by
  have hcounts := hreach.countsSigns
  refine ⟨hcounts.increment_iff, fun b hb hsign => ?_⟩
  rcases hcounts.ofSign b hb hsign with ⟨hpos, hrole⟩
  have hincrement : state.role = .increment ↔ 2 ≤ state.signRun b := by
    rw [hrole]
    split_ifs with hrun <;> simp [hrun]
  have hstarts : startsStatement state.last state.role state.onNewLine = true ↔
      state.onNewLine = true ∧ 2 ≤ state.signRun b := by
    rw [hb, startsStatement_of_isSign hsign, hincrement]
  refine ⟨hpos, ?_, hstarts, fun hsingle after => ?_⟩
  · rw [hincrement, ← Nat.not_even_iff_odd]
    by_cases heven : Even (state.signRun b)
    · have hrun : 2 ≤ state.signRun b := by
        rcases heven with ⟨half, hhalf⟩
        omega
      simp [heven, hrun]
    · simp only [heven, iff_false, not_false_eq_true, true_and]
      have hne : state.signRun b ≠ 2 := fun htwo => heven (htwo ▸ even_two)
      omega
  · have hplain : state.role = .plain := by
      rw [hrole, if_neg (by omega)]
    have hmiddle : startsStatement state.last state.role state.onNewLine = false := by
      rw [← Bool.not_eq_true, hstarts]
      omega
    rw [judge, if_neg (by simp [hplain]), hmiddle]
    simp

/-- A decrement behind a binary minus, which a space keeps apart. -/
theorem increment_iff_signRun_decrement :
    ∃ state, Reaches (ofString "i - --") state [] ∧ state.last = some minus ∧
      state.signRun minus = 2 ∧ state.role = .increment := by
  rcases exists_sweepText "i - --" with ⟨state, report, hsweep, hreach, -⟩
  have hstate : (sweep (ofString "i - --")).map
      (fun state => (state.last, state.signRun minus)) = .ok (some minus, 2) := by
    decide +kernel
  rw [hsweep] at hstate
  simp only [Except.map, Except.ok.injEq, Prod.mk.injEq] at hstate
  rcases hstate with ⟨hlast, hrun⟩
  exact ⟨state, hreach, hlast, hrun,
    hreach.increment_iff_signRun.1.mpr ⟨minus, hlast, rfl, hrun.ge⟩⟩

/-- The third sign is a binary plus, and the call behind it is its operand; it is
deleted nevertheless, and the next statement becomes the operand. -/
theorem increment_of_three_signs :
    ∃ state rest opening closing ending,
      sweepText "a = b+++\nconsole.log(c)\nd()\n" =
        .ok ⟨"a = b+++\nd()\n", [.removed ⟨.log, 9, 2⟩]⟩ ∧
      DeletesCall (ofString "a = b+++\nconsole.log(c)\nd()\n") state rest
        ⟨.log, 9, 2⟩ opening closing ending ∧
      state.last = some plus ∧ state.signRun plus = 3 ∧ state.role = .increment := by
  rcases exists_sweepText "a = b+++\nconsole.log(c)\nd()\n" with
    ⟨final, -, hsweep, hreach, -⟩
  have hparts : (sweep (ofString "a = b+++\nconsole.log(c)\nd()\n")).map
      (fun final => (final.segments.toList[9]?.map Segment.kind,
        lastCode? (final.segments.toList.take 9),
        ((segmentsText (upToToken (surviving false
          (final.segments.toList.take 9)))).rtakeWhile (· == plus)).length)) =
      .ok (some (.removed ⟨.log, 9, 2⟩ true 0), some plus, 3) := by
    decide +kernel
  rw [hsweep] at hparts
  simp only [Except.map, Except.ok.injEq, Prod.mk.injEq] at hparts
  rcases hparts with ⟨hkind, hlast, hrun⟩
  rcases Option.map_eq_some_iff.mp hkind with ⟨segment, hget, hkind⟩
  rcases List.getElem?_eq_some_iff.mp hget with ⟨hlt, hsegment⟩
  have hsplit : final.segments.toList = final.segments.toList.take 9 ++
      segment :: final.segments.toList.drop 10 := by
    rw [← hsegment, ← List.drop_eq_getElem_cons hlt, List.take_append_drop]
  rcases hreach.exists_deletesCall hsplit ⟨true, 0, hkind⟩ with
    ⟨state, rest, opening, closing, ending, hdeletes, hbefore, -⟩
  rw [← hbefore, ← hdeletes.reaches.last_eq] at hlast
  have hrun : state.signRun plus = 3 := by rwa [← hbefore] at hrun
  have hcounts := hdeletes.reaches.countsSigns
  refine ⟨state, rest, opening, closing, ending, by decide +kernel, hdeletes, hlast, hrun, ?_⟩
  exact hcounts.increment_iff.mpr ⟨plus, hlast, rfl, by omega⟩

end

end SweepState
end LogSweep
