import LogSweep.Proofs.LiteralReturns
import LogSweep.Proofs.StatementDeletion

/-!
# Segments of a text with carriage returns

In two states that agree in all that a step looks at, one before a text and one
before its image, the next segments are of the same kind, and the second is the
image of the first.  Only where the first stops at the end of its line, the
second takes the carriage return there along.
-/

namespace LogSweep

open Byte Bytes

/-! ## A carriage return more, or less -/

/-- The carriage return that a segment took along, if it did. -/
def returned (extra : Bool) : Bytes :=
  if extra then [carriageReturn] else []

/-- What is left of these bytes once the carriage return at their start is gone,
if it is. -/
def withoutReturn (skipped : Bool) (bytes : Bytes) : Bytes :=
  if skipped then bytes.tail else bytes

/-- The carriage return in front of the line feed with which these bytes start,
then what it leaves of their image. -/
theorem returned_append_withoutReturn {extra : Bool} {bytes : Bytes}
    (hfeed : extra = true → ∃ after, bytes = newline :: after) :
    returned extra ++ withoutReturn extra (crlf bytes) = crlf bytes := by
  cases extra with
  | false => rfl
  | true =>
      obtain ⟨after, rfl⟩ := hfeed rfl
      rfl

theorem count_withoutReturn (skipped : Bool) (bytes : Bytes) :
    (withoutReturn skipped (crlf bytes)).count newline = bytes.count newline := by
  cases skipped with
  | false => exact count_crlf bytes
  | true =>
      cases bytes with
      | nil => rfl
      | cons b bytes =>
          by_cases hb : b = newline
          · subst hb
            simp [withoutReturn]
          · simp [withoutReturn, crlf_cons_of_ne hb, List.count_cons_of_ne hb]

/-! ## Segments and their images -/

/-- The kind of a segment whose call starts elsewhere, with a line terminator of
another length. -/
def Segment.Kind.moved (start terminator : Nat) : Segment.Kind → Segment.Kind
  | .kept call obstacle => .kept { call with start } obstacle
  | .removed call endsLine _ => .removed { call with start } endsLine terminator
  | kind => kind

/-- A segment with `rest` behind it, and its image with `rest'` behind it:
`extra` tells whether the image took along the carriage return between the
two, which it does if the segment stops at the end of its line. -/
structure MirrorsSegment (extra : Bool) (segment segment' : Segment)
    (rest rest' : Bytes) : Prop where
  kind : ∃ start terminator, segment'.kind = segment.kind.moved start terminator
  bytes : segment'.bytes = crlf segment.bytes ++ returned extra
  left : rest' = withoutReturn extra (crlf rest)
  feed : extra = true → ∃ after, rest = newline :: after
  stops : rest ≠ [] → extra = stopsAtLineEnd segment.first segment.others

section

variable {extra : Bool} {segment segment' : Segment} {rest rest' : Bytes}

theorem MirrorsSegment.extra_eq_false
    (hmirrors : MirrorsSegment extra segment segment' rest rest')
    (hstops : stopsAtLineEnd segment.first segment.others = false) : extra = false := by
  by_contra hextra
  obtain ⟨after, hafter⟩ := hmirrors.feed (by simpa using hextra)
  exact hextra ((hmirrors.stops (by simp [hafter])).trans hstops)

theorem MirrorsSegment.first_eq
    (hmirrors : MirrorsSegment extra segment segment' rest rest')
    (hfirst : segment.first ≠ newline) : segment'.first = segment.first := by
  have hbytes := hmirrors.bytes
  rw [Segment.bytes, Segment.bytes, crlf_cons_of_ne hfirst, List.cons_append] at hbytes
  exact (List.cons.inj hbytes).1

theorem MirrorsSegment.bytes_eq
    (hmirrors : MirrorsSegment false segment segment' rest rest')
    (hline : newline ∉ segment.bytes) : segment'.bytes = segment.bytes := by
  rw [hmirrors.bytes, crlf_eq_self hline, returned, if_neg (by simp), List.append_nil]

theorem MirrorsSegment.count_eq
    (hmirrors : MirrorsSegment extra segment segment' rest rest') :
    segment'.bytes.count newline = segment.bytes.count newline := by
  rw [hmirrors.bytes, List.count_append, count_crlf]
  cases extra <;> rfl

theorem MirrorsSegment.contains_eq
    (hmirrors : MirrorsSegment extra segment segment' rest rest') :
    segment'.bytes.contains newline = segment.bytes.contains newline := by
  rw [Bool.eq_iff_iff, List.contains_iff_mem, List.contains_iff_mem,
    ← List.count_pos_iff, ← List.count_pos_iff, hmirrors.count_eq]

end

/-- A segment whose image is that of its bytes, cut off from the image of the
rest of the text. -/
theorem exists_cut_of_image {b : UInt8} {tail bytes beyond : Bytes} {more : Nat}
    (hsplit : b :: tail = bytes ++ beyond) (hlength : more + 1 = bytes.length) :
    b :: tail.take more = bytes ∧ tail.drop more = beyond := by
  have htake : (b :: tail).take (more + 1) = bytes := by
    rw [hsplit, hlength, List.take_left]
  have hdrop : (b :: tail).drop (more + 1) = beyond := by
    rw [hsplit, hlength, List.drop_left]
  exact ⟨by simpa using htake, by simpa using hdrop⟩

namespace SweepState

/-- Two states that agree in all that a step looks at. -/
structure DecidesAlike (state state' : SweepState) : Prop where
  line : state'.line = state.line
  last : state'.last = state.last
  role : state'.role = state.role
  onNewLine : state'.onNewLine = state.onNewLine
  isEmpty : state'.written.isEmpty = state.written.isEmpty

/-- The next segment in the image, and the image of the next segment. -/
def NextMirrored (src' : Bytes) (state' : SweepState) (rest' : Bytes) (extra : Bool)
    (segment : Segment) (beyond : Bytes) : Prop :=
  ∃ b tail kind more, rest' = b :: tail ∧
    NextSegment src' state' b tail kind more ∧
    MirrorsSegment extra segment ⟨kind, b, tail.take more⟩ beyond (tail.drop more)

section

variable {src src' tail : Bytes} {state state' : SweepState} {b : UInt8}
  {method : Method} {opening more : Nat} {kind : Segment.Kind}

theorem NextMirrored.of_bytes {bytes beyond : Bytes} {more' : Nat}
    (start terminator : Nat) (hb : b ≠ newline) (hsplit : b :: tail = bytes ++ beyond)
    (hlength : more + 1 = bytes.length)
    (hlength' : more' + 1 = (crlf bytes).length)
    (hstops : stopsAtLineEnd b (tail.take more) = false)
    (hnext : NextSegment src' state' b (crlf tail) (kind.moved start terminator) more') :
    NextMirrored src' state' (crlf (b :: tail)) false ⟨kind, b, tail.take more⟩
      (tail.drop more) := by
  obtain ⟨hbytes, hbeyond⟩ := exists_cut_of_image hsplit hlength
  have hsplit' : b :: crlf tail = crlf bytes ++ crlf beyond := by
    rw [← crlf_cons_of_ne hb, hsplit, crlf_append]
  obtain ⟨hbytes', hbeyond'⟩ := exists_cut_of_image hsplit' hlength'
  refine ⟨b, crlf tail, _, more', crlf_cons_of_ne hb tail, hnext, ⟨start, terminator, rfl⟩,
    ?_, ?_, by simp, fun _ => hstops.symm⟩
  · show b :: (crlf tail).take more' = crlf (b :: tail.take more) ++ []
    rw [hbytes', hbytes, List.append_nil]
  · rw [hbeyond', hbeyond]
    rfl

theorem stopsAtLineEnd_of_isWord (hb : isWord b = true) (others : Bytes) :
    stopsAtLineEnd b others = false := by
  have hne : ∀ c, isWord c = false → b ≠ c := by
    rintro c hc rfl
    rw [hb] at hc
    cases hc
  have hslash := hne slash (by decide)
  have hsingle := hne singleQuote (by decide)
  have hdouble := hne doubleQuote (by decide)
  simp [stopsAtLineEnd, hslash, hsingle, hdouble]

theorem NextMirrored.of_word (start terminator : Nat) (hword : isWord b = true)
    (hnext : NextSegment src' state' b (crlf tail) (kind.moved start terminator)
      (runLength isWord (crlf tail))) :
    NextMirrored src' state' (crlf (b :: tail)) false
      ⟨kind, b, tail.take (runLength isWord tail)⟩ (tail.drop (runLength isWord tail)) := by
  have hb := (ne_lineEnd_of_isWord hword).1
  have hline : newline ∉ b :: tail.take (runLength isWord tail) := by
    intro hmem
    exact (ne_lineEnd_of_isWord (forall_mem_run hword tail newline hmem)).1 rfl
  have hlength : runLength isWord tail + 1 =
      (b :: tail.take (runLength isWord tail)).length := by
    rw [List.length_cons, List.length_take,
      Nat.min_eq_left (runLength_le_length isWord tail)]
  refine .of_bytes start terminator hb
    (by rw [List.cons_append, List.take_append_drop]) hlength ?_
    (stopsAtLineEnd_of_isWord hword _) hnext
  rw [runLength_crlf (by decide) (by decide), crlf_eq_self hline, hlength]

/-- A literal or comment, with the carriage return behind it if it stops there. -/
theorem NextMirrored.of_opened {prev : Option UInt8} {literal : Literal}
    (hopened : Literal.opened? prev b tail = some literal)
    (hlines : opensAcrossLines prev b tail = false)
    (hkind : ∀ start terminator, kind.moved start terminator = kind)
    (hnext : ∀ more,
      Literal.opened? prev b (crlf tail) = some ⟨literal.kind, more⟩ →
      NextSegment src' state' b (crlf tail) kind more) :
    ∃ extra, NextMirrored src' state' (crlf (b :: tail)) extra
      ⟨kind, b, tail.take literal.more⟩ (tail.drop literal.more) := by
  have hb : b ≠ newline := by
    rintro rfl
    exact absurd hopened.symm (Option.some_ne_none literal)
  obtain ⟨more, himage, body, beyond, rfl, hmore, hcases⟩ :=
    Literal.opened?_mirrors hopened hlines
  rw [hmore, List.take_left, List.drop_left]
  have hsplit : b :: crlf (body ++ beyond) = b :: crlf body ++ crlf beyond := by
    rw [crlf_append, List.cons_append]
  rcases hcases with ⟨rfl, hstops⟩ | ⟨rfl, hstops, after, rfl⟩
  · -- closed by its own bytes, or by the end of the text
    obtain ⟨hbytes, hbeyond⟩ := exists_cut_of_image hsplit rfl
    refine ⟨false, b, crlf (body ++ beyond), kind, _, crlf_cons_of_ne hb _, hnext _ himage,
      ⟨0, 0, (hkind 0 0).symm⟩, ?_, hbeyond, by simp, fun hbeyond => ?_⟩
    · show b :: _ = crlf (b :: body) ++ []
      rw [hbytes, List.append_nil, crlf_cons_of_ne hb]
    · exact (hstops.resolve_right hbeyond).symm
  · -- stopped by a line feed, in the image behind the carriage return
    have hsplit' : b :: crlf (body ++ newline :: after) =
        (b :: crlf body ++ [carriageReturn]) ++ newline :: crlf after := by
      rw [hsplit, crlf_newline]
      simp
    obtain ⟨hbytes, hbeyond⟩ := exists_cut_of_image hsplit'
      (show (crlf body).length + 1 + 1 = _ by simp)
    refine ⟨true, b, crlf (body ++ newline :: after), kind, _, crlf_cons_of_ne hb _,
      hnext _ himage, ⟨0, 0, (hkind 0 0).symm⟩, ?_, hbeyond, fun _ => ⟨after, rfl⟩,
      fun _ => hstops.symm⟩
    show b :: _ = crlf (b :: body) ++ [carriageReturn]
    rw [hbytes, crlf_cons_of_ne hb]

theorem takeWhile_cons_isWhitespace (hb : isWhitespace b = true) (tail : Bytes) :
    b :: tail.take (runLength isWhitespace tail) = (b :: tail).takeWhile isWhitespace ∧
      tail.drop (runLength isWhitespace tail) = (b :: tail).dropWhile isWhitespace := by
  rw [take_runLength, drop_runLength, List.takeWhile_cons_of_pos hb,
    List.dropWhile_cons_of_pos hb]
  exact ⟨rfl, rfl⟩

/-- White space, without the carriage return at its start if a segment took that
along. -/
theorem exists_space_mirrored {skipped : Bool} (hspace : isWhitespace b = true)
    (hskipped : skipped = true → b = newline) :
    ∃ b' tail', withoutReturn skipped (crlf (b :: tail)) = b' :: tail' ∧
      isWhitespace b' = true ∧
      b' :: tail'.take (runLength isWhitespace tail') =
        withoutReturn skipped (crlf (b :: tail.take (runLength isWhitespace tail))) ∧
      tail'.drop (runLength isWhitespace tail') =
        crlf (tail.drop (runLength isWhitespace tail)) := by
  obtain ⟨hrun, hleft⟩ := takeWhile_cons_isWhitespace hspace tail
  rw [hrun, hleft, ← takeWhile_crlf (by decide), ← dropWhile_crlf (by decide)]
  cases skipped with
  | false =>
      obtain ⟨b', tail', himage, hfirst⟩ := exists_crlf_cons b tail
      have hspace' : isWhitespace b' = true := by
        rcases hfirst with rfl | rfl
        · exact hspace
        · decide
      obtain ⟨hrun', hleft'⟩ := takeWhile_cons_isWhitespace hspace' tail'
      exact ⟨b', tail', himage, hspace', by rw [hrun', himage]; rfl, by rw [hleft', himage]⟩
  | true =>
      obtain rfl := hskipped rfl
      obtain ⟨hrun', hleft'⟩ := takeWhile_cons_isWhitespace hspace (crlf tail)
      refine ⟨newline, crlf tail, rfl, hspace, ?_, ?_⟩
      · rw [hrun', crlf_newline, List.takeWhile_cons_of_pos (by decide)]
        rfl
      · rw [hleft', crlf_newline]
        conv => rhs; rw [List.dropWhile_cons_of_pos (by decide)]

/-! ## Calls and their images -/

/-- A call and the image of it have the same closing parenthesis, or none, with
the image of the same text behind it. -/
theorem MeetsCall.exists_closing (halike : state.DecidesAlike state')
    (hrest : src.drop state.offset = b :: tail)
    (hrest' : src'.drop state'.offset = crlf (b :: tail))
    (hcall : state.MeetsCall (b :: tail) method opening)
    (hlines : argumentsAcrossLines 0 none (src.drop opening) = false) :
    ∃ opening', state'.MeetsCall (crlf (b :: tail)) method opening' ∧
      (closingFrom src opening openParen closeParen = .unclosed →
        closingFrom src' opening' openParen closeParen = .unclosed) ∧
      ∀ closing, closingFrom src opening openParen closeParen = .found closing →
        ∃ called behind, b :: tail = called ++ closeParen :: behind ∧
          closing = state.offset + called.length ∧
          src.drop (closing + 1) = behind ∧
          closingFrom src' opening' openParen closeParen =
            .found (state'.offset + (crlf called).length) ∧
          src'.drop (state'.offset + (crlf called).length + 1) = crlf behind := by
  obtain ⟨head, after, hsplit, hopening, hcall'⟩ := hcall.inCrlf halike.last
  have hopen : src.drop opening = openParen :: after := by
    rw [hopening, ← List.drop_drop, hrest, hsplit, List.drop_left]
  have hopen' : src'.drop (state'.offset + (crlf head).length) =
      crlf (openParen :: after) := by
    rw [← List.drop_drop, hrest', hsplit, crlf_append, List.drop_left]
  have hsearch : ∀ src start, closingFrom src start openParen closeParen =
      closingIn openParen closeParen 0 (codeAfter none start (src.drop start)) := by
    intro src start
    rw [closingFrom, codeBytes_eq_codeAfter]
  obtain ⟨hunclosed, hfound⟩ := closingIn_mirrors hlines
  refine ⟨_, hcall', fun hnone => ?_, fun closing hclosing => ?_⟩
  · rw [hsearch, hopen', ← hopen]
    exact hunclosed opening (hsearch src opening ▸ hnone) _
  · rw [hsearch] at hclosing
    obtain ⟨body, behind, hbody, rfl, himage⟩ := hfound _ _ hclosing
    have hwhole : b :: tail = head ++ body ++ closeParen :: behind := by
      rw [hsplit, ← hopen, hbody, List.append_assoc]
    have hoffset : opening + body.length = state.offset + (head ++ body).length := by
      rw [hopening, List.length_append, Nat.add_assoc]
    refine ⟨head ++ body, behind, hwhole, hoffset, ?_, ?_, ?_⟩
    · rw [hoffset, Nat.add_assoc, ← List.drop_drop, hrest, hwhole, ← List.drop_drop,
        List.drop_left]
      rfl
    · rw [hsearch, hopen', ← hopen, himage, crlf_append, List.length_append, Nat.add_assoc]
    · rw [Nat.add_assoc, ← List.drop_drop, hrest', hwhole, crlf_append (head ++ body),
        ← List.drop_drop, List.drop_left, crlf_cons_of_ne (by decide)]
      rfl

theorem terminatorAfter_crlf {ending : Ending} {spelled terminator beyond : Bytes}
    (halike : state.DecidesAlike state') (hspelled : newline ∉ spelled)
    (hlength : ending.length = spelled.length)
    (hreturn : carriageReturn ∉ terminator ++ beyond)
    (hterminator : state.terminatorAfter ending (spelled ++ (terminator ++ beyond)) =
      terminator.length) :
    state'.terminatorAfter ending (crlf (spelled ++ (terminator ++ beyond))) =
      (crlf terminator).length := by
  rw [terminatorAfter, hlength, List.drop_left] at hterminator
  rw [terminatorAfter, halike.isEmpty, crlf_append, crlf_eq_self hspelled, hlength,
    List.drop_left]
  split_ifs at hterminator ⊢ with hdropped
  · rw [terminatorLength_crlf _ hreturn, hterminator, List.take_left]
  · rw [List.length_eq_zero_iff.mp hterminator.symm]
    rfl

theorem NextMirrored.of_removed {called behind : Bytes} {closing' opening' : Nat}
    {ending : Ending} (halike : state.DecidesAlike state')
    (hreturn : carriageReturn ∉ b :: tail) (hword : isWord b = true)
    (hsplit : b :: tail = called ++ closeParen :: behind)
    (hjudge : judge state.last state.role state.onNewLine behind = .ok ending)
    (hcall' : state'.MeetsCall (crlf (b :: tail)) method opening')
    (hclosing' : closing' = state'.offset + (crlf called).length)
    (hfound' : closingFrom src' opening' openParen closeParen = .found closing')
    (hbehind' : src'.drop (closing' + 1) = crlf behind)
    (hmore : more = called.length + ending.length + state.terminatorAfter ending behind) :
    NextMirrored src' state' (crlf (b :: tail)) false
      ⟨.removed (state.callHere method) ending.endsLine (state.terminatorAfter ending behind),
        b, tail.take more⟩ (tail.drop more) := by
  obtain ⟨spelled, terminator, beyond, rfl, hspelled, hlength, -, hterminator, -⟩ :=
    ending_spelled hjudge
  have hline := hspelled.newline_notMem
  have hreturn' : carriageReturn ∉ terminator ++ beyond := by
    intro hmem
    rw [hsplit] at hreturn
    exact hreturn (List.mem_append_right _
      (List.mem_cons_of_mem _ (List.mem_append_right _ hmem)))
  have hterminator' := terminatorAfter_crlf halike hline hlength hreturn' hterminator
  have hb := (ne_lineEnd_of_isWord hword).1
  have hjudge' : judge state'.last state'.role state'.onNewLine
      (src'.drop (closing' + 1)) = .ok ending := by
    rw [hbehind', judge_crlf, halike.last, halike.role, halike.onNewLine, hjudge]
  have hcallHere : state'.callHere method =
      { state.callHere method with start := state'.offset } := by
    rw [callHere, halike.line]
    rfl
  rw [crlf_cons_of_ne hb tail] at hcall'
  have hnext := NextSegment.removed hword hcall' hfound' hjudge'
  rw [hbehind', hterminator', hcallHere, hclosing', Nat.add_sub_cancel_left, hlength] at hnext
  have hwhole : b :: tail =
      (called ++ closeParen :: (spelled ++ terminator)) ++ beyond := by
    rw [hsplit]
    simp
  refine .of_bytes state'.offset _ hb hwhole ?_ ?_ (stopsAtLineEnd_of_isWord hword _) hnext
  · rw [hmore, hlength, hterminator]
    simp
    omega
  · rw [crlf_append, crlf_cons_of_ne (by decide), crlf_append, crlf_eq_self hline]
    simp
    omega

theorem NextSegment.exists_mirrored (halike : state.DecidesAlike state')
    (hrest : src.drop state.offset = b :: tail)
    (hrest' : src'.drop state'.offset = crlf (b :: tail))
    (hreturn : carriageReturn ∉ b :: tail)
    (hliteral : opensAcrossLines state.last b tail = false)
    (harguments : ∀ method opening, state.MeetsCall (b :: tail) method opening →
      argumentsAcrossLines 0 none (src.drop opening) = false)
    (hsegment : NextSegment src state b tail kind more) (hspace : kind ≠ .space) :
    ∃ extra, NextMirrored src' state' (crlf (b :: tail)) extra
      ⟨kind, b, tail.take more⟩ (tail.drop more) := by
  have hcallHere : ∀ method, state'.callHere method =
      { state.callHere method with start := state'.offset } := by
    intro method
    rw [callHere, halike.line]
    rfl
  have hword : isWord b = true → crlf (b :: tail) = b :: crlf tail := fun hb =>
    crlf_cons_of_ne (ne_lineEnd_of_isWord hb).1 tail
  cases hsegment with
  | space => exact absurd rfl hspace
  | literal hopened hvalue =>
      refine NextMirrored.of_opened hopened hliteral (fun _ _ => rfl) fun more himage => ?_
      rw [← halike.last] at himage
      exact .literal himage hvalue
  | comment hopened hvalue =>
      refine NextMirrored.of_opened hopened hliteral (fun _ _ => rfl) fun more himage => ?_
      rw [← halike.last] at himage
      exact .comment himage hvalue
  | punctuation hopened hblank hb =>
      have hne : ∀ c, Literal.opened? state.last c tail ≠ none ∨ isWhitespace c = true →
          b ≠ c := by
        rintro c hc rfl
        rcases hc with hc | hc
        · exact hc hopened
        · exact absurd hc (by simp [hblank])
      have hnewline := hne newline (Or.inr (by decide))
      have hsingle := hne singleQuote (Or.inl (Option.some_ne_none _))
      have hdouble := hne doubleQuote (Or.inl (Option.some_ne_none _))
      have himage := Literal.opened?_crlf_of_none hopened
      rw [← halike.last] at himage
      refine ⟨false, .of_bytes 0 0 hnewline (List.singleton_append ..).symm rfl ?_ ?_
        (.punctuation himage hblank hb)⟩
      · rw [crlf_cons_of_ne hnewline]
        rfl
      · simp [stopsAtLineEnd, hsingle, hdouble]
  | word hb hnone =>
      refine ⟨false, .of_word 0 0 hb (.word hb ?_)⟩
      intro method opening hcall
      rw [← hword hb] at hcall
      obtain ⟨before, hcall⟩ := hcall.ofCrlf halike.last
      exact hnone method before hcall
  | @unclosed method opening hb hcall hsearch =>
      obtain ⟨opening', hcall', hunclosed, -⟩ :=
        hcall.exists_closing halike hrest hrest' (harguments _ _ hcall)
      have hnext := NextSegment.unclosed hb (hword hb ▸ hcall') (hunclosed hsearch)
      rw [hcallHere] at hnext
      exact ⟨false, .of_word state'.offset 0 hb hnext⟩
  | @refused method opening closing obstacle hb hcall hfound hjudge =>
      obtain ⟨opening', hcall', -, hclosing⟩ :=
        hcall.exists_closing halike hrest hrest' (harguments _ _ hcall)
      obtain ⟨called, behind, -, -, hbehind, hfound', hbehind'⟩ := hclosing closing hfound
      have hjudge' : judge state'.last state'.role state'.onNewLine
          (src'.drop (state'.offset + (crlf called).length + 1)) = .error obstacle := by
        rw [hbehind', judge_crlf, halike.last, halike.role, halike.onNewLine, ← hbehind,
          hjudge]
      have hnext := NextSegment.refused hb (hword hb ▸ hcall') hfound' hjudge'
      rw [hcallHere] at hnext
      exact ⟨false, .of_word state'.offset 0 hb hnext⟩
  | @removed method opening closing ending hb hcall hfound hjudge =>
      obtain ⟨opening', hcall', -, hclosing⟩ :=
        hcall.exists_closing halike hrest hrest' (harguments _ _ hcall)
      obtain ⟨called, behind, hsplit, rfl, hbehind, hfound', hbehind'⟩ :=
        hclosing closing hfound
      rw [hbehind] at hjudge ⊢
      refine ⟨false, .of_removed halike hreturn hb hsplit hjudge hcall' rfl hfound' hbehind' ?_⟩
      rw [Nat.add_sub_cancel_left]

end
end SweepState
end LogSweep
