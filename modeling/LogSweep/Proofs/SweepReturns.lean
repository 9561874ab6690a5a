import LogSweep.Proofs.SegmentReturns
import LogSweep.Proofs.ValueUse

/-!
# Sweeping a text with carriage returns

The sweep of a text and the sweep of its image go in step.  Where a segment took
along the carriage return behind it, the second output is ahead by that byte
until the line feed is written too; if the line feed is deleted with a
statement, the carriage return stays behind alone.  That is the only difference
between the second output and the image of the first.
-/

namespace LogSweep

open Byte Bytes SweepState

/-! ## Carriage returns that stay behind -/

/-- Whether the output ends with a carriage return whose line feed is still held
back, after a segment that does or does not leave one there. -/
def holdsReturn (held : Bool) (segment : Segment) : Bool :=
  match segment.kind with
  | .space => held
  | .removed _ endsLine _ => held && !endsLine
  | _ => stopsAtLineEnd segment.first segment.others

/-- Whether the last of these segments that stays, white space aside, stops at
the end of its line, and no statement was deleted with its line since. -/
def returnHeld (segments : List Segment) : Bool :=
  segments.foldl holdsReturn false

/-- A statement is deleted with its line, and so with the line feed of the one
before, at the end of which a line comment or an unclosed string stops. -/
def StrandsReturn (segments : List Segment) : Prop :=
  ∃ before segment after, segments = before ++ segment :: after ∧
    segment.endsLine = true ∧ returnHeld before = true

theorem returnHeld_concat (segments : List Segment) (segment : Segment) :
    returnHeld (segments ++ [segment]) = holdsReturn (returnHeld segments) segment := by
  simp [returnHeld]

theorem strandsReturn_concat {segments : List Segment} {segment : Segment} :
    StrandsReturn (segments ++ [segment]) ↔
      StrandsReturn segments ∨ segment.endsLine = true ∧ returnHeld segments = true := by
  constructor
  · rintro ⟨before, deleted, after, hsplit, hdeleted⟩
    rcases List.eq_nil_or_concat after with rfl | ⟨after, last, rfl⟩
    · obtain ⟨rfl, hlast⟩ := List.append_inj' hsplit (by simp)
      obtain rfl := (List.cons.inj hlast).1
      exact Or.inr hdeleted
    · rw [List.concat_eq_append, ← List.cons_append, ← List.append_assoc] at hsplit
      exact Or.inl ⟨before, deleted, after, (List.append_inj' hsplit (by simp)).1, hdeleted⟩
  · rintro (⟨before, deleted, after, rfl, hdeleted⟩ | hlast)
    · exact ⟨before, deleted, after ++ [segment], by simp, hdeleted⟩
    · exact ⟨segments, segment, [], rfl, hlast⟩

/-- `image` is the image of `bytes`, with `strays` carriage returns more. -/
inductive Strays : Nat → Bytes → Bytes → Prop where
  | nil : Strays 0 [] []
  | append {strays : Nat} {bytes image : Bytes} (more : Bytes) :
      Strays strays bytes image → Strays strays (bytes ++ more) (image ++ crlf more)
  | stray {strays : Nat} {bytes image : Bytes} :
      bytes ≠ [] → Strays strays bytes image →
        Strays (strays + 1) bytes (image ++ [carriageReturn])

section

variable {strays : Nat} {bytes image : Bytes}

theorem Strays.length_eq (hstrays : Strays strays bytes image) :
    image.length = (crlf bytes).length + strays := by
  induction hstrays with
  | nil => rfl
  | append more _ ih =>
      rw [crlf_append, List.length_append, List.length_append, ih]
      omega
  | stray _ _ ih =>
      rw [List.length_append, ih]
      simp
      omega

theorem Strays.eq_crlf (hstrays : Strays strays bytes image) (hnone : strays = 0) :
    image = crlf bytes := by
  induction hstrays with
  | nil => rfl
  | append more _ ih => rw [ih hnone, crlf_append]
  | stray => simp at hnone

theorem Strays.eq_crlf_iff (hstrays : Strays strays bytes image) :
    image = crlf bytes ↔ strays = 0 := by
  constructor
  · intro himage
    have hlength := hstrays.length_eq
    rw [himage] at hlength
    omega
  · exact hstrays.eq_crlf

theorem Strays.eq_nil_iff (hstrays : Strays strays bytes image) :
    image = [] ↔ bytes = [] := by
  induction hstrays with
  | nil => simp
  | append more _ ih => simp [ih]
  | stray hbytes _ ih => simp [hbytes]

end

/-! ## Findings -/

/-- The method and the line of a call. -/
def Call.place (call : Call) : Method × Nat :=
  (call.method, call.line)

/-- The place of a finding, and the obstacle if the call stays. -/
def Finding.outcome : Finding → (Method × Nat) × Option Obstacle
  | .removed call => (call.place, none)
  | .kept call obstacle => (call.place, some obstacle)

theorem map_place_removed_eq {findings findings' : List Finding}
    (houtcomes : findings'.map Finding.outcome = findings.map Finding.outcome) :
    (findings'.filterMap Finding.removed?).map Call.place =
      (findings.filterMap Finding.removed?).map Call.place := by
  have hplaces : ∀ list : List Finding, (list.filterMap Finding.removed?).map Call.place =
      (list.map Finding.outcome).filterMap fun outcome =>
        if outcome.2 = none then some outcome.1 else none := by
    intro list
    rw [List.map_filterMap, List.filterMap_map]
    congr
    funext finding
    cases finding <;> rfl
  rw [hplaces, hplaces, houtcomes]

theorem map_place_kept_eq {findings findings' : List Finding}
    (houtcomes : findings'.map Finding.outcome = findings.map Finding.outcome) :
    (findings'.filterMap Finding.kept?).map (Prod.map Call.place id) =
      (findings.filterMap Finding.kept?).map (Prod.map Call.place id) := by
  have hplaces : ∀ list : List Finding,
      (list.filterMap Finding.kept?).map (Prod.map Call.place id) =
        (list.map Finding.outcome).filterMap fun outcome => outcome.2.map (outcome.1, ·) := by
    intro list
    rw [List.map_filterMap, List.filterMap_map]
    congr
    funext finding
    cases finding <;> rfl
  rw [hplaces, hplaces, houtcomes]

/-! ## Two sweeps in step -/

namespace SweepState

/-- The state of a sweep before `rest` and that of the sweep of the image before
`rest'`.  `carried` tells whether the second has written a carriage return whose
line feed is held back, and `strays` how many stayed behind before. -/
structure Mirrors (carried : Bool) (strays : Nat) (state state' : SweepState)
    (rest rest' : Bytes) : Prop where
  line : state'.line = state.line
  last : state'.last = state.last
  role : state'.role = state.role
  heads : state'.heads = state.heads
  writtenNewline : state'.writtenNewline = state.writtenNewline
  findings :
    (state'.segments.toList.filterMap Segment.finding?).map Finding.outcome =
      (state.segments.toList.filterMap Segment.finding?).map Finding.outcome
  written :
    ∃ image, Strays strays state.written.toList image ∧
      state'.written.toList = image ++ returned carried
  pending : state'.pending = withoutReturn carried (crlf state.pending)
  left : rest' = withoutReturn (carried && state.pending.isEmpty) (crlf rest)
  feed : carried = true → ∃ after, state.pending ++ rest = newline :: after
  unwritten : carried = true → state.written.toList ≠ []
  lastWritten :
    state.pending = [] → ∀ b tail, rest = b :: tail → b ≠ newline →
      state'.written.back? = state.written.back?
  held : state.pending ++ rest ≠ [] → carried = returnHeld state.segments.toList
  strands : 0 < strays ↔ StrandsReturn state.segments.toList

theorem mirrors_initial (src : Bytes) :
    Mirrors false 0 .initial .initial src (crlf src) where
  line := rfl
  last := rfl
  role := rfl
  heads := rfl
  writtenNewline := rfl
  findings := rfl
  written := ⟨[], .nil, rfl⟩
  pending := rfl
  left := rfl
  feed := by simp
  unwritten := by simp
  lastWritten := fun _ _ _ _ _ => rfl
  held := fun _ => rfl
  strands := by
    constructor
    · simp
    · rintro ⟨before, segment, after, hsplit, -⟩
      simp [initial] at hsplit

section

variable {carried : Bool} {strays : Nat} {state state' : SweepState} {rest rest' : Bytes}

theorem Mirrors.decidesAlike (hmirrors : Mirrors carried strays state state' rest rest') :
    state.DecidesAlike state' where
  line := hmirrors.line
  last := hmirrors.last
  role := hmirrors.role
  onNewLine := by
    have hpending : state'.pending.contains newline = state.pending.contains newline := by
      rw [Bool.eq_iff_iff, List.contains_iff_mem, List.contains_iff_mem,
        ← List.count_pos_iff, ← List.count_pos_iff, hmirrors.pending, count_withoutReturn]
    rw [onNewLine, onNewLine, hmirrors.writtenNewline, hpending]
  isEmpty := by
    obtain ⟨image, hstrays, hwritten⟩ := hmirrors.written
    rw [Bool.eq_iff_iff, Array.isEmpty_iff, Array.isEmpty_iff, ← Array.toList_eq_nil_iff,
      ← Array.toList_eq_nil_iff, hwritten]
    cases hcarried : carried with
    | false => simp [returned, hstrays.eq_nil_iff]
    | true => simp [returned, hmirrors.unwritten hcarried]

/-- Only in front of a line feed has the second sweep read a byte more. -/
theorem Mirrors.not_skipped (hmirrors : Mirrors carried strays state state' rest rest')
    (hfirst : rest.head? ≠ some newline) : (carried && state.pending.isEmpty) = false := by
  by_contra hskipped
  simp only [Bool.not_eq_false, Bool.and_eq_true, List.isEmpty_iff] at hskipped
  obtain ⟨after, hafter⟩ := hmirrors.feed hskipped.1
  rw [hskipped.2, List.nil_append] at hafter
  exact hfirst (by rw [hafter]; rfl)

theorem Mirrors.pending_feed (hmirrors : Mirrors carried strays state state' rest rest')
    (hskipped : (carried && state.pending.isEmpty) = false) :
    carried = true → ∃ after, state.pending = newline :: after := by
  intro hcarried
  obtain ⟨after, hafter⟩ := hmirrors.feed hcarried
  cases hpending : state.pending with
  | nil => simp [hcarried, hpending] at hskipped
  | cons b pending =>
      rw [hpending, List.cons_append, List.cons.injEq] at hafter
      exact ⟨pending, by rw [hafter.1]⟩

/-- Elsewhere the white space held back is there as its image. -/
theorem Mirrors.exists_output (hmirrors : Mirrors carried strays state state' rest rest')
    (hskipped : (carried && state.pending.isEmpty) = false) :
    ∃ image, Strays strays state.written.toList image ∧
      state'.output = image ++ crlf state.pending := by
  obtain ⟨image, hstrays, hwritten⟩ := hmirrors.written
  refine ⟨image, hstrays, ?_⟩
  rw [SweepState.output, hwritten, hmirrors.pending, List.append_assoc,
    returned_append_withoutReturn (hmirrors.pending_feed hskipped)]

theorem outcome_moved {segment segment' : Segment} {start terminator : Nat}
    (hkind : segment'.kind = segment.kind.moved start terminator) :
    segment'.finding?.map Finding.outcome = segment.finding?.map Finding.outcome := by
  rw [Segment.finding?, Segment.finding?, hkind]
  cases segment.kind <;> rfl

theorem Mirrors.findings_push (hmirrors : Mirrors carried strays state state' rest rest')
    {segment segment' : Segment} {start terminator : Nat}
    (hkind : segment'.kind = segment.kind.moved start terminator) :
    ((state'.segments.push segment').toList.filterMap Segment.finding?).map
        Finding.outcome =
      ((state.segments.push segment).toList.filterMap Segment.finding?).map
        Finding.outcome := by
  have hlist : ∀ (segments : Array Segment) (segment : Segment),
      ((segments.push segment).toList.filterMap Segment.finding?).map Finding.outcome =
        (segments.toList.filterMap Segment.finding?).map Finding.outcome ++
          (segment.finding?.map Finding.outcome).toList := by
    intro segments segment
    rw [Array.toList_push, List.filterMap_append, List.map_append]
    cases hfinding : segment.finding? <;> simp [hfinding]
  rw [hlist, hlist, hmirrors.findings, outcome_moved hkind]

/-! ### White space -/

theorem push_space {segment : Segment} (hkind : segment.kind = .space)
    (state : SweepState) :
    state.push segment = { state with
      segments := state.segments.push segment
      offset := state.offset + segment.bytes.length
      line := state.line + segment.bytes.count newline
      pending := state.pending ++ segment.bytes } := by
  simp [push, emit, hkind]

theorem Mirrors.push_space (hmirrors : Mirrors carried strays state state' rest rest')
    {segment segment' : Segment} {beyond : Bytes} (hkind : segment.kind = .space)
    (hkind' : segment'.kind = .space)
    (hbytes : segment'.bytes =
      withoutReturn (carried && state.pending.isEmpty) (crlf segment.bytes))
    (hsplit : rest = segment.bytes ++ beyond) :
    Mirrors carried strays (state.push segment) (state'.push segment') beyond
      (crlf beyond) := by
  have hmoved : segment'.kind = segment.kind.moved 0 0 := by
    rw [hkind, hkind']
    rfl
  have hsome : segment.bytes ≠ [] := List.cons_ne_nil _ _
  have hends : segment.endsLine = false := by
    rw [Segment.endsLine, hkind]
  rw [SweepState.push_space hkind, SweepState.push_space hkind']
  exact {
    line := by simp only [hmirrors.line, hbytes, count_withoutReturn]
    last := hmirrors.last
    role := hmirrors.role
    heads := hmirrors.heads
    writtenNewline := hmirrors.writtenNewline
    findings := hmirrors.findings_push hmoved
    written := hmirrors.written
    pending := by
      rw [hmirrors.pending, hbytes, crlf_append]
      cases carried with
      | false => rfl
      | true =>
          cases hheld : state.pending with
          | nil => rfl
          | cons b pending =>
              obtain ⟨first, others, himage, -⟩ := exists_crlf_cons b pending
              rw [himage]
              rfl
    left := by simp [withoutReturn, hsome]
    feed := by
      rw [List.append_assoc, ← hsplit]
      exact hmirrors.feed
    unwritten := hmirrors.unwritten
    lastWritten := by simp [hsome]
    held := fun _ => by
      rw [Array.toList_push, returnHeld_concat, holdsReturn, hkind]
      exact hmirrors.held (by simp [hsplit, hsome])
    strands := by
      rw [Array.toList_push, strandsReturn_concat, hends, hmirrors.strands]
      simp }

/-! ### Deleted statements -/

theorem push_removed {segment : Segment} {call : Call} {endsLine : Bool}
    {terminator : Nat} (hkind : segment.kind = .removed call endsLine terminator)
    (state : SweepState) :
    state.push segment = { state with
      segments := state.segments.push segment
      offset := state.offset + segment.bytes.length
      line := state.line + segment.bytes.count newline
      pending := if endsLine then [] else state.pending } := by
  cases endsLine <;> simp [push, emit, hkind]

section

variable {segment segment' : Segment} {beyond beyond' : Bytes} {call call' : Call}
  {terminator terminator' : Nat}

/-- A statement in the middle of a line: the white space held back stays so. -/
theorem Mirrors.push_removed_inLine
    (hmirrors : Mirrors carried strays state state' rest rest')
    (hsegment : MirrorsSegment false segment segment' beyond beyond')
    (hkind : segment.kind = .removed call false terminator)
    (hkind' : segment'.kind = .removed call' false terminator')
    (hsplit : rest = segment.bytes ++ beyond) (hfirst : segment.first ≠ newline) :
    Mirrors carried strays (state.push segment) (state'.push segment') beyond beyond' := by
  obtain ⟨start, length, hmoved⟩ := hsegment.kind
  have hends : segment.endsLine = false := by
    rw [Segment.endsLine, hkind]
  have hskipped := hmirrors.not_skipped (by simpa [hsplit, Segment.bytes] using hfirst)
  rw [SweepState.push_removed hkind, SweepState.push_removed hkind']
  exact {
    line := by simp only [hmirrors.line, hsegment.count_eq]
    last := hmirrors.last
    role := hmirrors.role
    heads := hmirrors.heads
    writtenNewline := hmirrors.writtenNewline
    findings := hmirrors.findings_push hmoved
    written := hmirrors.written
    pending := hmirrors.pending
    left := by
      rw [hsegment.left, if_neg (by simp), hskipped]
    feed := fun hcarried => by
      obtain ⟨after, hafter⟩ := hmirrors.pending_feed hskipped hcarried
      exact ⟨after ++ beyond, by simp [hafter]⟩
    unwritten := hmirrors.unwritten
    lastWritten := fun hnone b tail hbeyond hb =>
      hmirrors.lastWritten (by simpa using hnone) segment.first
        (segment.others ++ beyond) hsplit hfirst
    held := fun _ => by
      rw [Array.toList_push, returnHeld_concat, holdsReturn, hkind,
        ← hmirrors.held (by simp [hsplit, Segment.bytes])]
      simp
    strands := by
      rw [Array.toList_push, strandsReturn_concat, hends, hmirrors.strands]
      simp }

/-- A statement that takes its line along: a carriage return that was written
before it loses its line feed. -/
theorem Mirrors.push_removed_withLine
    (hmirrors : Mirrors carried strays state state' rest rest')
    (hsegment : MirrorsSegment false segment segment' beyond beyond')
    (hkind : segment.kind = .removed call true terminator)
    (hkind' : segment'.kind = .removed call' true terminator')
    (hsplit : rest = segment.bytes ++ beyond)
    (hline : state.written.isEmpty = true ∨
      ∀ b tail, beyond = b :: tail → b = newline) :
    Mirrors false (strays + carried.toNat) (state.push segment) (state'.push segment')
      beyond beyond' := by
  obtain ⟨start, length, hmoved⟩ := hsegment.kind
  have hends : segment.endsLine = true := by
    rw [Segment.endsLine, hkind]
  rw [SweepState.push_removed hkind, SweepState.push_removed hkind']
  exact {
    line := by simp only [hmirrors.line, hsegment.count_eq]
    last := hmirrors.last
    role := hmirrors.role
    heads := hmirrors.heads
    writtenNewline := hmirrors.writtenNewline
    findings := hmirrors.findings_push hmoved
    written := by
      obtain ⟨image, hstrays, hwritten⟩ := hmirrors.written
      cases hcarried : carried with
      | false => exact ⟨image, hstrays, by simp [hwritten, hcarried]⟩
      | true =>
          refine ⟨image ++ [carriageReturn],
            .stray (hmirrors.unwritten hcarried) hstrays, ?_⟩
          simp [hwritten, hcarried, returned]
    pending := rfl
    left := hsegment.left
    feed := by simp
    unwritten := by simp
    lastWritten := fun _ b tail hbeyond hb => by
      rcases hline with hempty | hfeed
      · have hempty' := hmirrors.decidesAlike.isEmpty.trans hempty
        rw [Array.isEmpty_iff] at hempty hempty'
        rw [hempty, hempty']
      · exact absurd (hfeed b tail hbeyond) hb
    held := fun _ => by
      rw [Array.toList_push, returnHeld_concat, holdsReturn, hkind]
      simp
    strands := by
      rw [Array.toList_push, strandsReturn_concat, hends, ← hmirrors.strands,
        ← hmirrors.held (by simp [hsplit, Segment.bytes])]
      cases carried <;> simp }

theorem Mirrors.push_removed (hmirrors : Mirrors carried strays state state' rest rest')
    {endsLine : Bool} (hsegment : MirrorsSegment false segment segment' beyond beyond')
    (hkind : segment.kind = .removed call endsLine terminator)
    (hsplit : rest = segment.bytes ++ beyond) (hfirst : segment.first ≠ newline)
    (hline : endsLine = true → state.written.isEmpty = true ∨
      ∀ b tail, beyond = b :: tail → b = newline) :
    ∃ carried strays,
      Mirrors carried strays (state.push segment) (state'.push segment') beyond beyond' := by
  obtain ⟨start, length, hmoved⟩ := hsegment.kind
  have hkind' : segment'.kind = .removed { call with start } endsLine length := by
    rw [hmoved, hkind]
    rfl
  cases endsLine with
  | false => exact ⟨_, _, hmirrors.push_removed_inLine hsegment hkind hkind' hsplit hfirst⟩
  | true =>
      exact ⟨_, _, hmirrors.push_removed_withLine hsegment hkind hkind' hsplit (hline rfl)⟩

end

/-! ### What is written -/

theorem Mirrors.push_written (hmirrors : Mirrors carried strays state state' rest rest')
    {segment segment' : Segment} {beyond beyond' : Bytes} {extra : Bool}
    (hskipped : (carried && state.pending.isEmpty) = false)
    (hsegment : MirrorsSegment extra segment segment' beyond beyond')
    (hholds : ∀ held, holdsReturn held segment =
      stopsAtLineEnd segment.first segment.others)
    (hends : segment.endsLine = false)
    (hwritten : (state.push segment).written.toList = state.output ++ segment.bytes)
    (hwritten' : (state'.push segment').written.toList = state'.output ++ segment'.bytes)
    (hpending : (state.push segment).pending = [])
    (hpending' : (state'.push segment').pending = [])
    (hlast : (state'.push segment').last = (state.push segment).last)
    (hrole : (state'.push segment').role = (state.push segment).role)
    (hheads : (state'.push segment').heads = (state.push segment).heads)
    (hnewline : (state'.push segment').writtenNewline =
      (state.push segment).writtenNewline) :
    Mirrors extra strays (state.push segment) (state'.push segment') beyond beyond' := by
  obtain ⟨start, terminator, hmoved⟩ := hsegment.kind
  obtain ⟨image, hstrays, houtput⟩ := hmirrors.exists_output hskipped
  have hsome : segment.bytes ≠ [] := List.cons_ne_nil _ _
  have himage : (state'.push segment').written.toList =
      image ++ crlf (state.pending ++ segment.bytes) ++ returned extra := by
    rw [hwritten', houtput, hsegment.bytes, crlf_append]
    simp
  exact {
    line := by
      rw [push_line, push_line, hmirrors.line, hsegment.count_eq]
    last := hlast
    role := hrole
    heads := hheads
    writtenNewline := hnewline
    findings := by
      rw [push_segments, push_segments]
      exact hmirrors.findings_push hmoved
    written := by
      refine ⟨_, ?_, himage⟩
      rw [hwritten, SweepState.output, List.append_assoc]
      exact .append _ hstrays
    pending := by
      rw [hpending, hpending']
      cases extra <;> rfl
    left := by
      rw [hpending]
      simpa using hsegment.left
    feed := by
      rw [hpending]
      exact hsegment.feed
    unwritten := fun _ => by
      rw [hwritten]
      simp [hsome]
    lastWritten := fun _ b tail hbeyond hb => by
      -- a segment that took a carriage return along stands before a line feed
      have hextra : extra = false := by
        by_contra hextra
        obtain ⟨after, hafter⟩ := hsegment.feed (by simpa using hextra)
        rw [hbeyond, List.cons.injEq] at hafter
        exact hb hafter.1
      have hsome' : crlf segment.bytes ≠ [] := mt crlf_eq_nil_iff.mp hsome
      rw [← Array.getLast?_toList, ← Array.getLast?_toList, himage, hwritten, hextra,
        returned, if_neg (by simp), List.append_nil, crlf_append, ← List.append_assoc,
        List.getLast?_append_of_ne_nil _ hsome', List.getLast?_append_of_ne_nil _ hsome,
        getLast?_crlf]
    held := fun hbeyond => by
      rw [hpending, List.nil_append] at hbeyond
      rw [toList_push_segments, returnHeld_concat, hholds]
      exact hsegment.stops hbeyond
    strands := by
      rw [toList_push_segments, strandsReturn_concat, hends, hmirrors.strands]
      simp }

theorem Mirrors.doublesSign_eq {b : UInt8} {tail : Bytes}
    (hmirrors : Mirrors carried strays state state' (b :: tail) rest') (hb : b ≠ newline) :
    state'.doublesSign b = state.doublesSign b := by
  have hskipped := hmirrors.not_skipped (by simpa using hb)
  have hempty : state'.pending.isEmpty = state.pending.isEmpty := by
    rw [hmirrors.pending]
    cases carried with
    | false => rw [Bool.eq_iff_iff]; simp [withoutReturn]
    | true =>
        obtain ⟨after, hafter⟩ := hmirrors.pending_feed hskipped rfl
        rw [hafter]
        rfl
  rw [doublesSign, doublesSign, hmirrors.last, hempty]
  cases hpending : state.pending with
  | nil => rw [hmirrors.lastWritten hpending b tail rfl hb]
  | cons c pending => simp

theorem Mirrors.punctuationRole_eq {b : UInt8} {tail : Bytes}
    (hmirrors : Mirrors carried strays state state' (b :: tail) rest') (hb : b ≠ newline) :
    state'.punctuationRole b = state.punctuationRole b := by
  rw [punctuationRole, punctuationRole, hmirrors.heads, hmirrors.doublesSign_eq hb]

theorem Mirrors.headsAfter_eq (hmirrors : Mirrors carried strays state state' rest rest')
    (b : UInt8) : state'.headsAfter b = state.headsAfter b := by
  rw [headsAfter, headsAfter, hmirrors.heads, hmirrors.role]

theorem Mirrors.push_word {segment segment' : Segment} {beyond beyond' : Bytes} {extra : Bool}
    (hmirrors : Mirrors carried strays state state' rest rest')
    (hskipped : (carried && state.pending.isEmpty) = false)
    (hsegment : MirrorsSegment extra segment segment' beyond beyond')
    (hword : ∀ b ∈ segment.bytes, isWord b = true)
    (hkind : segment.kind = .word ∨ ∃ call obstacle, segment.kind = .kept call obstacle) :
    Mirrors extra strays (state.push segment) (state'.push segment') beyond beyond' := by
  have hfirst : isWord segment.first = true := hword _ List.mem_cons_self
  obtain rfl : extra = false := hsegment.extra_eq_false (stopsAtLineEnd_of_isWord hfirst _)
  have hbytes := hsegment.bytes_eq fun hmem => absurd (hword _ hmem) (by decide)
  obtain ⟨start, terminator, hmoved⟩ := hsegment.kind
  obtain ⟨kind, first, others⟩ := segment
  obtain ⟨kind', first', others'⟩ := segment'
  simp only [Segment.bytes, List.cons.injEq] at hbytes
  obtain ⟨rfl, rfl⟩ := hbytes
  simp only at hkind hmoved
  rcases hkind with rfl | ⟨call, obstacle, rfl⟩ <;> subst hmoved <;>
    exact hmirrors.push_written hskipped hsegment (fun _ => rfl) rfl (write_written ..)
      (write_written ..) rfl rfl rfl rfl hmirrors.heads rfl

/-! ### Each step, and the whole run -/

theorem NextSegment.first_ne_newline {src tail : Bytes} {b : UInt8} {kind : Segment.Kind}
    {more : Nat} (hsegment : NextSegment src state b tail kind more)
    (hspace : kind ≠ .space) : b ≠ newline := by
  rintro rfl
  cases hsegment with
  | space => exact hspace rfl
  | literal hopened => exact absurd hopened.symm (Option.some_ne_none _)
  | comment hopened => exact absurd hopened.symm (Option.some_ne_none _)
  | punctuation _ hblank => exact absurd hblank (by decide)
  | word hb => exact absurd hb (by decide)
  | unclosed hb => exact absurd hb (by decide)
  | refused hb => exact absurd hb (by decide)
  | removed hb => exact absurd hb (by decide)

/-- No string or regex that the sweep of a text reads, as a piece of the text,
in a template or between the parentheses of a call, holds a line feed. -/
structure KeepsToLines (src : Bytes) : Prop where
  literals : ∀ state b tail, Reaches src state (b :: tail) →
    opensAcrossLines state.last b tail = false
  arguments : ∀ state b tail method opening, Reaches src state (b :: tail) →
    state.MeetsCall (b :: tail) method opening →
    argumentsAcrossLines 0 none (src.drop opening) = false

/-- So it is in particular if no backslash stands right before a line feed. -/
theorem keepsToLines_of_not_escapes {src : Bytes} (hescapes : ¬ EscapesLineFeed src) :
    KeepsToLines src where
  literals := fun state b tail hreach => by
    have hsuffix : b :: tail <:+ src := by
      rw [← hreach.drop_offset.1]
      exact List.drop_suffix _ _
    exact opensAcrossLines_of_not_escapes
      (mt (EscapesLineFeed.of_suffix ((List.suffix_cons b tail).trans hsuffix)) hescapes) _ _
  arguments := fun _ _ _ _ _ _ _ => argumentsAcrossLines_of_not_escapes
    (mt (EscapesLineFeed.of_suffix (List.drop_suffix _ _)) hescapes) _ _

/-- The line ends behind a statement that is deleted with it, or nothing was
written yet. -/
theorem NextSegment.line_ends {src tail : Bytes} {b : UInt8} {kind : Segment.Kind}
    {more : Nat} (hrest : src.drop state.offset = b :: tail)
    (hreturn : carriageReturn ∉ b :: tail)
    (hsegment : NextSegment src state b tail kind more)
    (hends : (Segment.mk kind b (tail.take more)).endsLine = true) :
    state.written.isEmpty = true ∨
      ∀ c beyond, tail.drop more = c :: beyond → c = newline := by
  by_cases hempty : state.written.isEmpty = true
  · exact Or.inl hempty
  · refine Or.inr fun c beyond hbeyond => ?_
    obtain ⟨call, terminator, hkind⟩ :
        ∃ call terminator, kind = .removed call true terminator := by
      cases kind with
      | removed call endsLine terminator =>
          obtain rfl : endsLine = true := hends
          exact ⟨call, terminator, rfl⟩
      | _ => cases hends
    have hend := hsegment.atLineEnd_of_removed hrest hkind (by simpa using hempty)
    rw [hbeyond] at hend
    rcases atLineEnd_cons.mp hend with hc | hc
    · exact hc
    · have hmem : c ∈ b :: tail :=
        List.mem_cons_of_mem b (List.mem_of_mem_drop (hbeyond ▸ List.mem_cons_self))
      exact absurd (hc ▸ hmem) hreturn

section

variable {src src' tail : Bytes} {b : UInt8} {kind : Segment.Kind} {more : Nat}

theorem Mirrors.exists_step (hmirrors : Mirrors carried strays state state' (b :: tail) rest')
    (hreach : Reaches src state (b :: tail)) (hreach' : Reaches src' state' rest')
    (hreturn : carriageReturn ∉ b :: tail) (hlines : KeepsToLines src)
    (hsegment : NextSegment src state b tail kind more) :
    ∃ carried strays b' tail' kind' more', rest' = b' :: tail' ∧
      NextSegment src' state' b' tail' kind' more' ∧
      Mirrors carried strays (state.push ⟨kind, b, tail.take more⟩)
        (state'.push ⟨kind', b', tail'.take more'⟩) (tail.drop more) (tail'.drop more') := by
  -- only white space can have lost the carriage return at its start
  by_cases hspace : kind = .space
  · subst hspace
    cases hsegment with
    | space hb =>
        have hskipped : (carried && state.pending.isEmpty) = true → b = newline := by
          intro hskipped
          simp only [Bool.and_eq_true, List.isEmpty_iff] at hskipped
          obtain ⟨after, hafter⟩ := hmirrors.feed hskipped.1
          rw [hskipped.2, List.nil_append, List.cons.injEq] at hafter
          exact hafter.1
        obtain ⟨b', tail', himage, hb', hbytes, hleft⟩ := exists_space_mirrored hb hskipped
        refine ⟨carried, strays, b', tail', _, _, hmirrors.left.trans himage, .space hb', ?_⟩
        rw [hleft]
        refine hmirrors.push_space rfl rfl hbytes ?_
        rw [Segment.bytes, List.cons_append, List.take_append_drop]
  · have hb := NextSegment.first_ne_newline hsegment hspace
    have hskipped := hmirrors.not_skipped (by simpa using hb)
    have hleft : rest' = crlf (b :: tail) := by
      rw [hmirrors.left, hskipped]
      rfl
    obtain ⟨extra, b', tail', kind', more', hrest', hnext, hmirror⟩ :=
      hsegment.exists_mirrored hmirrors.decidesAlike hreach.drop_offset.1
        (hleft ▸ hreach'.drop_offset.1) hreturn (hlines.literals _ _ _ hreach)
        (fun method opening => hlines.arguments _ _ _ method opening hreach) hspace
    replace hrest' := hleft.trans hrest'
    have hfirst : b' = b := hmirror.first_eq hb
    obtain ⟨start, terminator, hmoved⟩ := hmirror.kind
    change kind' = kind.moved start terminator at hmoved
    subst hmoved hfirst
    have hsplit : b' :: tail = (Segment.mk kind b' (tail.take more)).bytes ++ tail.drop more := by
      rw [Segment.bytes, List.cons_append, List.take_append_drop]
    have hends := NextSegment.line_ends hreach.drop_offset.1 hreturn hsegment
    cases hsegment with
    | space => exact absurd rfl hspace
    | literal =>
        exact ⟨extra, strays, b', tail', _, more', hrest', hnext,
          hmirrors.push_written hskipped hmirror (fun _ => rfl) rfl
            (write_written ..) (write_written ..) rfl rfl rfl rfl hmirrors.heads rfl⟩
    | comment =>
        refine ⟨extra, strays, b', tail', _, more', hrest', hnext,
          hmirrors.push_written hskipped hmirror (fun _ => rfl) rfl
            (write_written ..) (write_written ..) rfl rfl hmirrors.last hmirrors.role
            hmirrors.heads ?_⟩
        exact congrArg₂ (· || ·) hmirrors.decidesAlike.onNewLine hmirror.contains_eq
    | punctuation =>
        change NextSegment src' state' b' tail' .punctuation more' at hnext
        obtain rfl : more' = 0 := by cases hnext; rfl
        have hrole := hmirrors.punctuationRole_eq hb
        exact ⟨extra, strays, b', tail', _, 0, hrest', hnext,
          hmirrors.push_written hskipped hmirror (fun _ => rfl) rfl
            (write_written ..) (write_written ..) rfl rfl rfl hrole
            (hmirrors.headsAfter_eq b') rfl⟩
    | word hword =>
        exact ⟨_, strays, b', tail', _, more', hrest', hnext,
          hmirrors.push_word hskipped hmirror (forall_mem_run hword tail) (Or.inl rfl)⟩
    | unclosed hword =>
        exact ⟨_, strays, b', tail', _, more', hrest', hnext,
          hmirrors.push_word hskipped hmirror (forall_mem_run hword tail)
            (Or.inr ⟨_, _, rfl⟩)⟩
    | refused hword =>
        exact ⟨_, strays, b', tail', _, more', hrest', hnext,
          hmirrors.push_word hskipped hmirror (forall_mem_run hword tail)
            (Or.inr ⟨_, _, rfl⟩)⟩
    | @removed method opening closing ending hword =>
        obtain rfl : extra = false := hmirror.extra_eq_false (stopsAtLineEnd_of_isWord hword _)
        obtain ⟨carried, strays, hpushed⟩ :=
          hmirrors.push_removed hmirror rfl hsplit hb hends
        exact ⟨carried, strays, b', tail', _, more', hrest', hnext, hpushed⟩

end

/-- The sweep of the image keeps up with the sweep of the text. -/
theorem Reaches.exists_mirrored {text : String} (hreturn : '\r' ∉ text.toList)
    (hlines : KeepsToLines (ofString text)) (hreach : Reaches (ofString text) state rest) :
    ∃ carried strays state' rest', Reaches (ofString (crlfText text)) state' rest' ∧
      Mirrors carried strays state state' rest rest' := by
  induction hreach with
  | start =>
      refine ⟨false, 0, .initial, ofString (crlfText text), .start, ?_⟩
      rw [ofString_crlfText]
      exact mirrors_initial (ofString text)
  | @step state b tail kind more hreach hnext hcut ih =>
      obtain ⟨carried, strays, state', rest', hreach', hmirrors⟩ := ih
      have hsuffix : b :: tail <:+ ofString text := by
        rw [← hreach.drop_offset.1]
        exact List.drop_suffix _ _
      have hnone : carriageReturn ∉ b :: tail := fun hmem =>
        carriageReturn_notMem_ofString hreturn (hsuffix.subset hmem)
      obtain ⟨carried, strays, b', tail', kind', more', rfl, hnext', hpushed⟩ :=
        hmirrors.exists_step hreach hreach' hnone hlines (hreach.nextSegment hnext)
      have hrest' := hreach'.drop_offset.1
      exact ⟨carried, strays, _, _, .step hreach' (hnext'.next_eq hrest')
        (hreach'.readsText.checkCut hrest' hnext'), hpushed⟩

end
end SweepState

/-- A text without carriage returns and its image with one before each line feed
are swept alike.  If no string or regex that is read holds a line feed, the same
calls are removed and the same are kept, on the same lines and for the same
reasons.  And the second output is the image of the first if and only if no
statement was deleted with its line behind a line comment or an unclosed string,
which ends right before the line feed that goes. -/
theorem sweepText_crlfText (text : String) (hreturn : '\r' ∉ text.toList)
    (hlines : KeepsToLines (ofString text)) :
    ∃ final report report', sweep (ofString text) = .ok final ∧
      sweepText text = .ok report ∧ sweepText (crlfText text) = .ok report' ∧
      report'.removed.map Call.place = report.removed.map Call.place ∧
      report'.kept.map (Prod.map Call.place id) =
        report.kept.map (Prod.map Call.place id) ∧
      (report'.text = crlfText report.text ↔ ¬ StrandsReturn final.segments.toList) := by
  obtain ⟨final, report, hsweep, hreach, hreport, htext, hfindings⟩ := exists_sweepText text
  obtain ⟨final', report', hsweep', -, hreport', htext', hfindings'⟩ :=
    exists_sweepText (crlfText text)
  obtain ⟨carried, strays, last', rest', hreach', hmirrors⟩ :=
    hreach.exists_mirrored hreturn hlines
  have hleft : rest' = [] := by
    rw [hmirrors.left, crlf_nil, withoutReturn, List.tail_nil, ite_self]
  subst hleft
  have hlast : last' = final' := by
    have hrun := hreach'.run_eq.trans hsweep'
    rw [run] at hrun
    exact Except.ok.inj hrun
  subst hlast
  have houtcomes : report'.findings.map Finding.outcome =
      report.findings.map Finding.outcome := by
    rw [hfindings, hfindings', hmirrors.findings]
  refine ⟨final, report, report', hsweep, hreport, hreport', map_place_removed_eq houtcomes,
    map_place_kept_eq houtcomes, ?_⟩
  -- the outputs differ by the carriage returns that stayed behind, and only by them
  obtain ⟨image, hstrays, houtput⟩ := hmirrors.exists_output (hmirrors.not_skipped (by simp))
  have himage : report'.text = crlfText report.text ↔ image = crlf final.written.toList := by
    rw [← ofString_injective.eq_iff, ofString_crlfText, htext, htext', houtput,
      SweepState.output, crlf_append, List.append_left_inj]
  rw [himage, hstrays.eq_crlf_iff, ← hmirrors.strands]
  omega

/-- A comment, a blank line and a template over two lines, none of them in the
way. -/
theorem sweepText_crlfText_template :
    '\r' ∉ "// c\na()\n\nconsole.log(`\n`)\nelse console.warn()".toList ∧
      KeepsToLines (ofString "// c\na()\n\nconsole.log(`\n`)\nelse console.warn()") ∧
      ∃ final report report',
        sweep (ofString "// c\na()\n\nconsole.log(`\n`)\nelse console.warn()") =
          .ok final ∧
        sweepText "// c\na()\n\nconsole.log(`\n`)\nelse console.warn()" = .ok report ∧
        report = ⟨"// c\na()\nelse console.warn()",
          [.removed ⟨.log, 10, 4⟩, .kept ⟨.warn, 32, 6⟩ .soleBody]⟩ ∧
        sweepText (crlfText "// c\na()\n\nconsole.log(`\n`)\nelse console.warn()") =
          .ok report' ∧
        report'.removed.map Call.place = report.removed.map Call.place ∧
        report'.kept.map (Prod.map Call.place id) =
          report.kept.map (Prod.map Call.place id) ∧
        report'.text = crlfText report.text ∧ ¬ StrandsReturn final.segments.toList := by
  have hreturn :
      '\r' ∉ "// c\na()\n\nconsole.log(`\n`)\nelse console.warn()".toList := by
    decide
  have hlines :
      KeepsToLines (ofString "// c\na()\n\nconsole.log(`\n`)\nelse console.warn()") :=
    keepsToLines_of_not_escapes (by decide +kernel)
  obtain ⟨final, report, report', hsweep, hreport, hreport', hremoved, hkept, htext⟩ :=
    sweepText_crlfText _ hreturn hlines
  have hrun : sweepText "// c\na()\n\nconsole.log(`\n`)\nelse console.warn()" =
      .ok ⟨"// c\na()\nelse console.warn()",
        [.removed ⟨.log, 10, 4⟩, .kept ⟨.warn, 32, 6⟩ .soleBody]⟩ := by
    decide +kernel
  have hrun' : sweepText
      (crlfText "// c\na()\n\nconsole.log(`\n`)\nelse console.warn()") =
        .ok ⟨"// c\r\na()\r\nelse console.warn()",
          [.removed ⟨.log, 13, 4⟩, .kept ⟨.warn, 37, 6⟩ .soleBody]⟩ := by
    decide +kernel
  obtain rfl := Except.ok.inj (hreport.symm.trans hrun)
  obtain rfl := Except.ok.inj (hreport'.symm.trans hrun')
  have himage : "// c\r\na()\r\nelse console.warn()" =
      crlfText "// c\na()\nelse console.warn()" := by
    decide +kernel
  exact ⟨hreturn, hlines, final, _, _, hsweep, hreport, rfl, hreport', hremoved, hkept,
    himage, htext.mp himage⟩

/-- Behind a line comment, the carriage return of its line stays when the line
feed goes.  And a line feed that a string escapes ends that string once a
carriage return stands before it, so that the rest of the line, a call in it,
is read as another. -/
theorem sweepText_crlfText_strands :
    '\r' ∉ "// c\nconsole.log(1);\nb();\n".toList ∧
      sweepText "// c\nconsole.log(1);\nb();\n" =
        .ok ⟨"// c\nb();\n", [.removed ⟨.log, 5, 2⟩]⟩ ∧
      sweepText (crlfText "// c\nconsole.log(1);\nb();\n") =
        .ok ⟨"// c\r\r\nb();\r\n", [.removed ⟨.log, 6, 2⟩]⟩ ∧
      "// c\r\r\nb();\r\n" ≠ crlfText "// c\nb();\n" ∧
      '\r' ∉ "'\\\n';console.log(1)".toList ∧
      sweepText "'\\\n';console.log(1)" = .ok ⟨"'\\\n';", [.removed ⟨.log, 5, 2⟩]⟩ ∧
      sweepText (crlfText "'\\\n';console.log(1)") =
        .ok ⟨"'\\\r\n';console.log(1)", []⟩ := by
  decide +kernel

end LogSweep
