import LogSweep.Proofs.LiteralEnds
import LogSweep.Proofs.ReportedCalls
import LogSweep.Proofs.TextLines

/-!
# Names that are left

No deletion joins two names.  Right in front of a deleted statement stands no byte
of a name, and where white space goes with one, a line end stays behind it.  So a
name with dots that the output spells is spelled by the text, at a place where
nothing is deleted, and what follows it there follows it in the output too, or is
white space.  Squeezing blank lines does not join names either.
-/

namespace LogSweep

open Byte Bytes SweepState

/-- Whether the byte can stand in a name with dots in it. -/
def isNameByte (b : UInt8) : Bool := isWord b || b == dot

theorem isNameByte_of_isWhitespace {b : UInt8} (hb : isWhitespace b = true) :
    isNameByte b = false := by
  rcases isWhitespace_cases hb with rfl | rfl | rfl | rfl | rfl <;> decide

theorem isNameByte_of_closesLiteral {b : UInt8} (hb : closesLiteral b = true) :
    isNameByte b = false := by
  have hcases : ((b = singleQuote ∨ b = doubleQuote) ∨ b = backtick) ∨ b = slash := by
    simpa [closesLiteral] using hb
  rcases hcases with ((rfl | rfl) | rfl) | rfl <;> decide

theorem SpellsEnding.isNameByte_eq_false {spelled : Bytes} {b : UInt8}
    (hspelled : SpellsEnding spelled) (hb : b ∈ spelled) : isNameByte b = false := by
  have hblank : ∀ c, isBlank c = true → isNameByte c = false := by
    intro c hc
    rcases isBlank_cases hc with rfl | rfl <;> decide
  rcases hspelled with hblanks | ⟨blanks, more, rfl, hblanks, hmore⟩
  · exact hblank b (hblanks b hb)
  · rcases List.mem_append.mp hb with hb | hb
    · exact hblank b (hblanks b hb)
    · rcases List.mem_cons.mp hb with rfl | hb
      · decide
      · exact hblank b (hmore b hb)

/-! ## In front of a deleted statement -/

/-- A word that comes right behind a literal or comment does not go on with a name
in it. -/
theorem EndsLiteral.isNameByte_last {b c d : UInt8} {inside beyond : Bytes}
    (hends : EndsLiteral inside (d :: beyond)) (hlast : (b :: inside).getLast? = some c)
    (hd : isWord d = true) : isNameByte c = false := by
  cases hends with
  | atLineEnd hline =>
      rw [hline d rfl] at hd
      cases hd
  | @closed before e hinside he =>
      rw [hinside, ← List.cons_append, List.getLast?_concat, Option.some.injEq] at hlast
      rw [← hlast]
      exact isNameByte_of_closesLiteral he
  | flagged _ _ hbeyond =>
      rw [hbeyond d rfl] at hd
      cases hd

namespace SweepState

section

variable {src tail beyond : Bytes} {state : SweepState} {b c d : UInt8}

theorem isNameByte_last_of_removed {closing : Nat} {ending : Ending}
    (hrest : src.drop state.offset = b :: tail) (hle : state.offset ≤ closing)
    (hbyte : src[closing]? = some closeParen)
    (hjudge : judge state.last state.role state.onNewLine (src.drop (closing + 1)) = .ok ending)
    (hlast : (b :: tail.take (closing - state.offset + ending.length +
      state.terminatorAfter ending (src.drop (closing + 1)))).getLast? = some c) :
    isNameByte c = false := by
  rcases ending_spelled hjudge with
    ⟨spelled, terminator, further, hafter, hspelled, hlength, -, hterminator, hcases⟩
  have hdrop : (b :: tail).drop (closing - state.offset) =
      (closeParen :: (spelled ++ terminator)) ++ further := by
    rw [← hrest, List.drop_drop, Nat.add_sub_cancel' hle, drop_eq_cons_of_getElem? hbyte, hafter]
    simp
  have hcount : closing - state.offset + ending.length +
      state.terminatorAfter ending (src.drop (closing + 1)) + 1 =
        closing - state.offset + (closeParen :: (spelled ++ terminator)).length := by
    rw [hlength, hterminator, List.length_cons, List.length_append]
    omega
  rw [← List.take_succ_cons, hcount, List.take_add, hdrop, List.take_left,
    List.getLast?_append_of_ne_nil _ (List.cons_ne_nil _ _)] at hlast
  rcases List.mem_cons.mp (List.mem_of_getLast? hlast) with rfl | hmem
  · decide
  · rcases List.mem_append.mp hmem with hmem | hmem
    · exact hspelled.isNameByte_eq_false hmem
    · exact isNameByte_of_isWhitespace (isWhitespace_of_mem_terminator hcases c hmem)

/-- No segment in front of a word ends within a name, unless it is the dot that the
word belongs to. -/
theorem NextSegment.isNameByte_last {kind : Segment.Kind} {more : Nat}
    (hrest : src.drop state.offset = b :: tail)
    (hsegment : NextSegment src state b tail kind more)
    (hlast : (b :: tail.take more).getLast? = some c) (hbeyond : tail.drop more = d :: beyond)
    (hd : isWord d = true) (hdot : (state.push ⟨kind, b, tail.take more⟩).last ≠ some dot) :
    isNameByte c = false := by
  have hword : ∀ rest : Bytes, rest.drop (runLength isWord rest) ≠ d :: beyond := by
    intro rest hrest
    have hhead := List.head?_dropWhile_not isWord rest
    rw [← drop_runLength, hrest] at hhead
    exact absurd (hhead.symm.trans hd) (by decide)
  cases hsegment with
  | literal hopened =>
      exact (hbeyond ▸ Literal.opened?_endsLiteral hopened).isNameByte_last hlast hd
  | comment hopened =>
      exact (hbeyond ▸ Literal.opened?_endsLiteral hopened).isNameByte_last hlast hd
  | space hspace =>
      exact isNameByte_of_isWhitespace
        (forall_mem_run hspace tail c (List.mem_of_getLast? hlast))
  | punctuation _ _ hb =>
      have hc : b = c := by simpa using hlast
      have hne : b ≠ dot := by
        rintro rfl
        exact hdot rfl
      rw [isNameByte, ← hc, hb, Bool.false_or]
      simpa using hne
  | word => exact absurd hbeyond (hword tail)
  | unclosed => exact absurd hbeyond (hword tail)
  | refused => exact absurd hbeyond (hword tail)
  | removed _ hcall hfound hjudge =>
      rcases closingFrom_found hfound with ⟨hle, hbyte⟩
      exact isNameByte_last_of_removed hrest (hcall.offset_lt.le.trans hle) hbyte hjudge hlast

/-- Right in front of a word that is no member of something else stands no byte of
a name. -/
theorem Reaches.isNameByte_before {x : Nat} (hreach : Reaches src state (d :: beyond))
    (hd : isWord d = true) (hmember : state.last ≠ some dot) (hx : x + 1 = state.offset)
    (hc : src[x]? = some c) : isNameByte c = false := by
  generalize hrest : d :: beyond = rest at hreach
  cases hreach with
  | start => cases hx
  | @step earlier b tail kind more hearlier hnext hcut =>
      have htext := (hearlier.step hnext hcut).segmentsText_eq
      rw [← hx, toList_push_segments, segmentsText_append] at htext
      have hlast : (b :: tail.take more).getLast? = some c := by
        have htake := congrArg List.getLast? htext
        rw [List.getLast?_append_of_ne_nil _ (by simp [Segment.bytes]), List.getLast?_take,
          if_neg (Nat.succ_ne_zero x), Nat.add_sub_cancel, hc] at htake
        simpa [Segment.bytes] using htake
      exact (hearlier.nextSegment hnext).isNameByte_last hearlier.drop_offset.1 hlast hrest.symm
        hd hmember

end

end SweepState

/-- Right in front of the statement stands no byte of a name. -/
def DeletedStatement.StandsApart (src : Bytes) (statement : DeletedStatement) : Prop :=
  ∀ x b, x + 1 = statement.call.start → src[x]? = some b → isNameByte b = false

theorem SweepState.Reaches.standsApart {src rest : Bytes} {final : SweepState}
    {statement : DeletedStatement} (hreach : Reaches src final rest)
    (hmem : statement ∈ deletedStatements final.segments.toList) : statement.StandsApart src := by
  rcases hreach.exists_deletesStatement hmem with
    ⟨before, segment, after, hsplit, hstatement, hdeletes⟩
  rcases hreach.cut_at hsplit with ⟨earlier, b, tail, more, hearlier, hbefore, -, hnext, -⟩
  rcases Segment.exists_kind_of_statement? hstatement with ⟨call, endsLine, terminator, hkind, -⟩
  have hoffset : statement.call.start = earlier.offset := by
    rw [hdeletes.start_eq, ← hbefore, hearlier.offset_eq]
  rw [hkind] at hnext
  intro x c hx hc
  cases hnext with
  | removed hb hcall _ _ =>
      exact hearlier.isNameByte_before hb hcall.notMember (hx.trans hoffset) hc

/-! ## Between two bytes that are left -/

/-- The bytes at `x` and `y` are left, and all between them are deleted. -/
structure Adjoin (deleted : Finset Nat) (x y : Nat) : Prop where
  left : x ∉ deleted
  right : y ∉ deleted
  lt : x < y
  between : ∀ z, x < z → z < y → z ∈ deleted

section

variable {src : Bytes} {statements : List DeletedStatement} {deleted : Finset Nat}
  {statement other : DeletedStatement} {x y z : Nat} {b c : UInt8}

theorem Deletion.stop_le_or_stop_le (hdeletion : Deletion src statements deleted)
    (hmem : statement ∈ statements) (hother : other ∈ statements) (hne : statement ≠ other) :
    statement.stop ≤ other.call.start ∨ other.stop ≤ statement.call.start := by
  have horder := List.pairwise_iff_getElem.mp hdeletion.inOrder
  rcases List.mem_iff_getElem.mp hmem with ⟨i, hi, rfl⟩
  rcases List.mem_iff_getElem.mp hother with ⟨j, hj, rfl⟩
  rcases lt_trichotomy i j with hlt | rfl | hlt
  · exact .inl (horder i j hi hj hlt)
  · exact absurd rfl hne
  · exact .inr (horder j i hj hi hlt)

theorem Deletion.not_covers_of_notMem (hdeletion : Deletion src statements deleted)
    (hx : x ∉ deleted) : ∀ statement ∈ statements, ¬ statement.Covers x :=
  fun statement hmem hcovers => hx ((hdeletion.mem_iff x).mpr (.inl ⟨statement, hmem, hcovers⟩))

/-- White space that leads back from a statement reaches no byte that is left and
is none itself. -/
theorem Deletion.start_lt_of_leadsBackTo (hdeletion : Deletion src statements deleted)
    (hmem : statement ∈ statements) (hleads : statement.LeadsBackTo src statements z)
    (hzy : z ≤ y) (hy : y ∉ deleted) (hc : src[y]? = some c) (hspace : isWhitespace c = false) :
    statement.call.start < y := by
  rcases hdeletion.spelled statement hmem with ⟨_, _, hspelled⟩
  have hapart := hdeletion.not_covers_of_notMem hy
  by_contra hle
  rcases Nat.eq_or_lt_of_le (not_lt.mp hle) with heq | hlt
  · exact hapart statement hmem ⟨heq.ge, heq ▸ hspelled.start_lt_stop⟩
  · rcases hleads.2 y hzy hlt with ⟨other, hother, hcovers⟩ | ⟨e, he, hwhite, -⟩
    · exact hapart other hother hcovers
    · rw [hc, Option.some.injEq] at he
      rw [he, hwhite] at hspace
      cases hspace

/-- Behind a byte that is left and no white space, each deleted byte belongs to a
statement or leads up to one that ends its line. -/
theorem Deletion.covered_or_leadsBackTo (hdeletion : Deletion src statements deleted)
    (hx : x ∉ deleted) (hb : src[x]? = some b) (hspace : isWhitespace b = false) (hxz : x < z)
    (hz : z ∈ deleted) :
    (∃ statement ∈ statements, statement.Covers z) ∨
      ∃ statement ∈ statements, statement.EndsLine src ∧
        statement.LeadsBackTo src statements z := by
  rcases (hdeletion.mem_iff z).mp hz with hcovers | hleads | ⟨other, -, -, hterminator, hall⟩
  · exact .inl hcovers
  · exact .inr hleads
  · -- a terminator goes only if all in front of it does
    exfalso
    have hrange := isTerminatorAt_iff.mp hterminator
    have hstop : other.stop ≤ x := not_lt.mp fun hlt => hx (hall x hlt)
    have hterminator : IsTerminatorAt src other.stop x :=
      isTerminatorAt_iff.mpr ⟨hstop, by omega⟩
    rcases hterminator.exists_whitespace with ⟨e, he, hwhite⟩
    rw [hb, Option.some.injEq] at he
    rw [he, hwhite] at hspace
    cases hspace

/-- Between two bytes that adjoin, neither of them white space, no deleted statement
ends its line: the line end behind the last one would be left. -/
theorem Deletion.le_start_of_endsLine (hdeletion : Deletion src statements deleted)
    (hadjoin : Adjoin deleted x y) (hb : src[x]? = some b) (hbspace : isWhitespace b = false)
    (hc : src[y]? = some c) (hcspace : isWhitespace c = false) (hmem : statement ∈ statements)
    (hends : statement.EndsLine src) (hstart : x < statement.call.start) :
    y ≤ statement.call.start := by
  induction hleft : y - statement.call.start using Nat.strong_induction_on
    generalizing statement with
  | _ left ih =>
      by_contra hlt
      rcases hdeletion.spelled statement hmem with ⟨_, _, hspelled⟩
      have hgrows := hspelled.start_lt_stop
      have hle : statement.stop ≤ y := by
        by_contra hbefore
        exact hdeletion.not_covers_of_notMem hadjoin.right statement hmem ⟨by omega, by omega⟩
      have hbreak : ∀ e, src[statement.stop]? = some e → isWhitespace e = true := by
        intro e he
        rcases hends e he with rfl | rfl <;> rfl
      have hne : statement.stop ≠ y := by
        rintro rfl
        rw [hbreak c hc] at hcspace
        cases hcspace
      have hdeleted := hadjoin.between statement.stop (by omega) (by omega)
      rcases hdeletion.covered_or_leadsBackTo hadjoin.left hb hbspace (by omega) hdeleted with
        ⟨other, hother, hcovers⟩ | ⟨other, hother, hotherEnds, hleads⟩
      · have hdistinct : statement ≠ other := by
          rintro rfl
          exact absurd hcovers.2 (lt_irrefl _)
        rcases hcovers with ⟨hstartsBefore, hstopsBehind⟩
        have hstop : other.call.start = statement.stop := by
          rcases hdeletion.stop_le_or_stop_le hmem hother hdistinct with hle | hle
          · exact Nat.le_antisymm hstartsBefore hle
          · omega
        rcases hdeletion.spelled other hother with ⟨_, _, hotherSpelled⟩
        have hfirst := hotherSpelled.getElem?_start
        rw [hstop] at hfirst
        exact absurd (hbreak _ hfirst) (by decide)
      · have hbefore := hdeletion.start_lt_of_leadsBackTo hother hleads hle hadjoin.right hc hcspace
        have hbehind := hleads.1
        have hge := ih _ (by omega) hother hotherEnds (by omega) rfl
        omega

section

variable (hapart : ∀ statement ∈ statements, statement.StandsApart src)

include hapart

/-- No statement starts right behind a byte of a name that is left. -/
theorem Deletion.not_covers_succ (hdeletion : Deletion src statements deleted)
    (hx : x ∉ deleted) (hb : src[x]? = some b) (hname : isNameByte b = true) :
    ∀ statement ∈ statements, ¬ statement.Covers (x + 1) := by
  intro statement hmem hcovers
  rcases hcovers with ⟨hle, hlt⟩
  have hstart : x + 1 = statement.call.start := by
    by_contra hne
    exact hdeletion.not_covers_of_notMem hx statement hmem ⟨by omega, by omega⟩
  rw [hapart statement hmem x b hstart hb] at hname
  cases hname

/-- Two bytes of names that adjoin in the output stand side by side in the text. -/
theorem Deletion.eq_succ_of_adjoin (hdeletion : Deletion src statements deleted)
    (hadjoin : Adjoin deleted x y) (hb : src[x]? = some b) (hbname : isNameByte b = true)
    (hc : src[y]? = some c) (hcname : isNameByte c = true) : y = x + 1 := by
  have hsolid : ∀ e, isNameByte e = true → isWhitespace e = false := by
    intro e he
    by_contra hspace
    rw [isNameByte_of_isWhitespace (by simpa using hspace)] at he
    cases he
  have hlt := hadjoin.lt
  by_contra hne
  have hdeleted := hadjoin.between (x + 1) (by omega) (by omega)
  rcases hdeletion.covered_or_leadsBackTo hadjoin.left hb (hsolid b hbname) (Nat.lt_succ_self x)
    hdeleted with ⟨statement, hmem, hcovers⟩ | ⟨statement, hmem, hends, hleads⟩
  · exact hdeletion.not_covers_succ hapart hadjoin.left hb hbname statement hmem hcovers
  · have hstart := (Nat.lt_succ_self x).trans hleads.1
    have hbefore := hdeletion.start_lt_of_leadsBackTo hmem hleads (by omega) hadjoin.right hc
      (hsolid c hcname)
    have hge := hdeletion.le_start_of_endsLine hadjoin hb (hsolid b hbname) hc (hsolid c hcname)
      hmem hends hstart
    omega

end

/-! ## Names in the output -/

/-- The bytes that are left, each with its offset. -/
def Bytes.leftPlaces (deleted : Finset Nat) (bytes : Bytes) : List (UInt8 × Nat) :=
  bytes.zipIdx.filter fun place => place.2 ∉ deleted

theorem Bytes.mem_leftPlaces_iff {place : UInt8 × Nat} :
    place ∈ src.leftPlaces deleted ↔ src[place.2]? = some place.1 ∧ place.2 ∉ deleted := by
  rw [leftPlaces, List.mem_filter, List.mem_zipIdx_iff_getElem?, decide_eq_true_iff]

theorem Bytes.leftPlaces_pairwise (deleted : Finset Nat) (bytes : Bytes) :
    (bytes.leftPlaces deleted).Pairwise fun earlier later => earlier.2 < later.2 := by
  have hplaces : bytes.zipIdx.Pairwise fun earlier later => earlier.2 < later.2 := by
    rw [← List.pairwise_map (f := Prod.snd), List.zipIdx_map_snd]
    exact List.pairwise_lt_range'
  exact hplaces.filter _

/-- What is left between the first part of the places and the rest of them. -/
theorem Bytes.mem_of_leftPlaces_split {before after : List (UInt8 × Nat)} {place : UInt8 × Nat}
    (hplaces : src.leftPlaces deleted = before ++ place :: after) (hz : src[z]? = some c)
    (hleft : z ∉ deleted) (hlt : place.2 < z) : (c, z) ∈ after := by
  have hpairwise := leftPlaces_pairwise deleted src
  rw [hplaces, List.pairwise_append] at hpairwise
  have hmem : (c, z) ∈ before ++ place :: after :=
    hplaces ▸ mem_leftPlaces_iff.mpr ⟨hz, hleft⟩
  rcases List.mem_append.mp hmem with hmem | hmem
  · exact absurd (hpairwise.2.2 _ hmem place List.mem_cons_self) (Nat.lt_asymm hlt)
  · rcases List.mem_cons.mp hmem with rfl | hmem
    · exact absurd hlt (lt_irrefl _)
    · exact hmem

theorem Bytes.adjoin_of_leftPlaces {before after : List (UInt8 × Nat)}
    {place next : UInt8 × Nat}
    (hplaces : src.leftPlaces deleted = before ++ place :: next :: after) :
    Adjoin deleted place.2 next.2 := by
  have hpairwise := leftPlaces_pairwise deleted src
  rw [hplaces, List.pairwise_append, List.pairwise_cons, List.pairwise_cons] at hpairwise
  rcases hpairwise with ⟨-, ⟨hplace, hnext, -⟩, -⟩
  have hmem : ∀ p ∈ [place, next], src[p.2]? = some p.1 ∧ p.2 ∉ deleted := by
    intro p hp
    rw [← mem_leftPlaces_iff, hplaces]
    rcases List.mem_pair.mp hp with rfl | rfl <;> simp
  have hright := hmem next (by simp)
  constructor
  · exact (hmem place (by simp)).2
  · exact hright.2
  · exact hplace next List.mem_cons_self
  · intro z hlt hgt
    by_contra hleft
    have hlength := (List.getElem?_eq_some_iff.mp hright.1).1
    have hbyte : src[z]? = some src[z] := List.getElem?_eq_getElem (hgt.trans hlength)
    rcases List.mem_cons.mp (mem_of_leftPlaces_split hplaces hbyte hleft hlt) with hsame | hlater
    · rw [← hsame] at hgt
      exact lt_irrefl _ hgt
    · exact Nat.lt_asymm hgt (hnext _ hlater)

section

variable (hapart : ∀ statement ∈ statements, statement.StandsApart src)

include hapart

/-- What follows the last byte of a name in the text follows it in the output too,
or is white space. -/
theorem Deletion.next_of_leftPlaces (hdeletion : Deletion src statements deleted)
    {before after : List (UInt8 × Nat)} {place : UInt8 × Nat}
    (hplaces : src.leftPlaces deleted = before ++ place :: after)
    (hname : isNameByte place.1 = true) (hc : src[place.2 + 1]? = some c) :
    isWhitespace c = true ∨ (after.map Prod.fst).head? = some c := by
  have hplace : src[place.2]? = some place.1 ∧ place.2 ∉ deleted := by
    rw [← mem_leftPlaces_iff, hplaces]
    simp
  by_cases hdeleted : place.2 + 1 ∈ deleted
  · rcases hdeletion.others _ hdeleted
      (hdeletion.not_covers_succ hapart hplace.2 hplace.1 hname) with ⟨e, he, hwhite⟩
    rw [hc, Option.some.injEq] at he
    exact .inl (he ▸ hwhite)
  · have hmem := mem_of_leftPlaces_split hplaces hc hdeleted (Nat.lt_succ_self _)
    cases after with
    | nil => cases hmem
    | cons next after =>
        have hadjoin := adjoin_of_leftPlaces hplaces
        have hnext : next.2 = place.2 + 1 := by
          by_contra hne
          have hlt := hadjoin.lt
          exact hdeleted (hadjoin.between _ (Nat.lt_succ_self _) (by omega))
        have hbyte : src[next.2]? = some next.1 ∧ next.2 ∉ deleted := by
          rw [← mem_leftPlaces_iff, hplaces]
          simp
        rw [hnext, hc, Option.some.injEq] at hbyte
        exact .inr (by rw [List.map_cons, List.head?_cons, hbyte.1])

/-- The places of a name in the output are one run of the text. -/
theorem Deletion.drop_of_leftPlaces (hdeletion : Deletion src statements deleted)
    {before run after : List (UInt8 × Nat)} {place : UInt8 × Nat}
    (hplaces : src.leftPlaces deleted = before ++ (place :: run ++ after))
    (hname : ∀ p ∈ place :: run, isNameByte p.1 = true) :
    ∃ beyond, src.drop place.2 = (place :: run).map Prod.fst ++ beyond ∧
      ∀ c ∈ beyond.head?, isWhitespace c = true ∨ (after.map Prod.fst).head? = some c := by
  have hplace : src[place.2]? = some place.1 := by
    have hmem : place ∈ src.leftPlaces deleted := by simp [hplaces]
    exact (mem_leftPlaces_iff.mp hmem).1
  induction run generalizing before place with
  | nil =>
      refine ⟨src.drop (place.2 + 1), drop_eq_cons_of_getElem? hplace, fun c hc => ?_⟩
      rw [List.head?_drop] at hc
      exact hdeletion.next_of_leftPlaces hapart hplaces (hname place List.mem_cons_self) hc
  | cons next run ih =>
      have hnext : src[next.2]? = some next.1 := by
        have hmem : next ∈ src.leftPlaces deleted := by simp [hplaces]
        exact (mem_leftPlaces_iff.mp hmem).1
      have hbehind : next.2 = place.2 + 1 :=
        hdeletion.eq_succ_of_adjoin hapart (adjoin_of_leftPlaces hplaces) hplace
          (hname place (by simp)) hnext (hname next (by simp))
      have hsplit : src.leftPlaces deleted = (before ++ [place]) ++ (next :: run ++ after) := by
        simpa using hplaces
      rcases ih hsplit (fun p hp => hname p (List.mem_cons_of_mem place hp)) hnext with
        ⟨beyond, hdrop, hbeyond⟩
      refine ⟨beyond, ?_, hbeyond⟩
      rw [drop_eq_cons_of_getElem? hplace, ← hbehind, hdrop]
      rfl

/-- A name in the output is one in the text, outside all that is deleted. -/
theorem Deletion.exists_name (hdeletion : Deletion src statements deleted)
    {before name after : Bytes} (hleft : src.without deleted = before ++ (name ++ after))
    (hname : ∀ b ∈ name, isNameByte b = true) (hsome : name ≠ []) :
    ∃ x beyond, src.drop x = name ++ beyond ∧ x ∉ deleted ∧
      ∀ c ∈ beyond.head?, isWhitespace c = true ∨ after.head? = some c := by
  have hmap : (src.leftPlaces deleted).map Prod.fst = before ++ (name ++ after) := hleft
  rcases List.map_eq_append_iff.mp hmap with ⟨first, others, hplaces, -, hothers⟩
  rcases List.map_eq_append_iff.mp hothers with ⟨run, last, rfl, rfl, rfl⟩
  cases run with
  | nil => exact absurd rfl hsome
  | cons place run =>
      rcases hdeletion.drop_of_leftPlaces hapart hplaces
        (fun p hp => hname _ (List.mem_map_of_mem hp)) with ⟨beyond, hdrop, hbeyond⟩
      have hmem : place ∈ src.leftPlaces deleted := by simp [hplaces]
      exact ⟨place.2, beyond, hdrop, (mem_leftPlaces_iff.mp hmem).2, hbeyond⟩

end

end

/-! ## Names of methods -/

/-- A method is named at `x` as in a call: its receiver, a dot and its name, with
white space or an opening parenthesis behind it, or the end of the text. -/
def NamesMethodAt (src : Bytes) (x : Nat) : Prop :=
  ∃ method beyond, src.drop x = ofString (Method.display method) ++ beyond ∧
    ∀ b ∈ beyond.head?, isWhitespace b = true ∨ b = openParen

theorem ofString_display (method : Method) :
    ofString method.display = ofString receiver ++ dot :: ofString method.name := by
  cases method <;> decide

theorem NamesMethodAt.take_eq_receiver {src : Bytes} {x : Nat} (hnames : NamesMethodAt src x) :
    x < src.length ∧ (src.drop x).take (ofString receiver).length = ofString receiver := by
  rcases hnames with ⟨method, beyond, hdrop, -⟩
  rw [ofString_display, List.append_assoc] at hdrop
  constructor
  · by_contra hle
    rw [List.drop_eq_nil_of_le (not_lt.mp hle)] at hdrop
    cases hdrop
  · rw [hdrop, List.take_left]

theorem isNameByte_of_mem_display (method : Method) :
    ∀ b ∈ ofString method.display, isNameByte b = true := by
  cases method <;> decide +kernel

/-- A method that the output names is named by the text, and not in a deleted
statement. -/
theorem Deletion.exists_namesMethodAt {src : Bytes} {statements : List DeletedStatement}
    {deleted : Finset Nat} {x : Nat} (hdeletion : Deletion src statements deleted)
    (hapart : ∀ statement ∈ statements, statement.StandsApart src)
    (hnames : NamesMethodAt (src.without deleted) x) :
    ∃ y, NamesMethodAt src y ∧ ∀ statement ∈ statements, ¬ statement.Covers y := by
  rcases hnames with ⟨method, after, hdrop, hafter⟩
  have hleft : src.without deleted =
      (src.without deleted).take x ++ (ofString method.display ++ after) := by
    rw [← hdrop, List.take_append_drop]
  rcases hdeletion.exists_name hapart hleft (isNameByte_of_mem_display method)
    (by cases method <;> decide) with ⟨y, beyond, hname, hy, hbeyond⟩
  refine ⟨y, ⟨method, beyond, hname, fun b hb => ?_⟩, hdeletion.not_covers_of_notMem hy⟩
  rcases hbeyond b hb with hwhite | hsame
  · exact .inl hwhite
  · exact hafter b hsame

/-- What a sweep deletes, with nothing of a name in front of any statement. -/
theorem exists_deletion_apart (text : String) :
    ∃ report statements deleted, sweepText text = .ok report ∧
      statements.map DeletedStatement.call = report.removed ∧
      Deletion (ofString text) statements deleted ∧
      ofString report.text = (ofString text).without deleted ∧
      ∀ statement ∈ statements, statement.StandsApart (ofString text) := by
  rcases exists_final_deletion text with
    ⟨final, report, hreach, hreport, hremoved, hdeletion, hleft⟩
  exact ⟨report, _, _, hreport, hremoved, hdeletion, hleft, fun statement => hreach.standsApart⟩

/-! ## Names in lines -/

theorem cutLines_eq_takeWhile (bytes : Bytes) :
    ∃ lines, bytes.cutLines = bytes.takeWhile (!isLineBreak ·) :: lines := by
  induction bytes with
  | nil => exact ⟨[], rfl⟩
  | cons b bytes ih =>
      rcases ih with ⟨lines, hlines⟩
      cases hb : isLineBreak b with
      | true => exact ⟨cutLines bytes, by simp [cutLines_cons_of_break hb, hb]⟩
      | false => exact ⟨lines, by simp [cutLines_cons hb hlines, hb]⟩

/-- What has no line end in it lies within a line, with the rest of the line behind
it. -/
theorem exists_mem_cutLines {before piece beyond : Bytes}
    (hpiece : ∀ b ∈ piece, isLineBreak b = false) :
    ∃ start, start ++ (piece ++ beyond.takeWhile (!isLineBreak ·)) ∈
      cutLines (before ++ (piece ++ beyond)) := by
  induction before with
  | nil =>
      rcases cutLines_eq_takeWhile (piece ++ beyond) with ⟨lines, hlines⟩
      refine ⟨[], ?_⟩
      rw [List.nil_append, hlines, List.takeWhile_append_of_pos fun b hb => by simp [hpiece b hb]]
      exact List.mem_cons_self
  | cons b before ih =>
      rcases ih with ⟨start, hmem⟩
      rw [List.cons_append]
      cases hb : isLineBreak b with
      | true =>
          rw [cutLines_cons_of_break hb]
          exact ⟨start, List.mem_cons_of_mem _ hmem⟩
      | false =>
          rcases List.exists_cons_of_ne_nil (cutLines_ne_nil (before ++ (piece ++ beyond))) with
            ⟨line, lines, hlines⟩
          rw [cutLines_cons hb hlines]
          rw [hlines] at hmem
          rcases List.mem_cons.mp hmem with hfirst | hlater
          · exact ⟨b :: start, by rw [List.cons_append, hfirst]; exact List.mem_cons_self⟩
          · exact ⟨start, List.mem_cons_of_mem _ hlater⟩

/-- A line stands in the text, with a line end behind it or with nothing. -/
theorem exists_of_mem_cutLines {bytes line : Bytes} (hline : line ∈ bytes.cutLines) :
    ∃ before beyond, bytes = before ++ (line ++ beyond) ∧
      ∀ b ∈ beyond.head?, isLineBreak b = true := by
  induction bytes generalizing line with
  | nil =>
      have hempty : line = [] := by simpa [cutLines] using hline
      exact ⟨[], [], by simp [hempty], by simp⟩
  | cons c bytes ih =>
      cases hc : isLineBreak c with
      | true =>
          rw [cutLines_cons_of_break hc] at hline
          rcases List.mem_cons.mp hline with rfl | hline
          · exact ⟨[], c :: bytes, rfl, by simpa using hc⟩
          · rcases ih hline with ⟨before, beyond, hbytes, hbeyond⟩
            exact ⟨c :: before, beyond, by rw [hbytes, List.cons_append], hbeyond⟩
      | false =>
          rcases cutLines_eq_takeWhile bytes with ⟨lines, hlines⟩
          rw [cutLines_cons hc hlines] at hline
          rcases List.mem_cons.mp hline with rfl | hline
          · refine ⟨[], bytes.dropWhile (!isLineBreak ·), ?_, fun b hb => ?_⟩
            · rw [List.nil_append, List.cons_append, List.takeWhile_append_dropWhile]
            · have hhead := List.head?_dropWhile_not (!isLineBreak ·) bytes
              rw [Option.mem_def.mp hb] at hhead
              simpa using hhead
          · have hmem : line ∈ cutLines bytes := hlines ▸ List.mem_cons_of_mem _ hline
            rcases ih hmem with ⟨before, beyond, hbytes, hbeyond⟩
            exact ⟨c :: before, beyond, by rw [hbytes, List.cons_append], hbeyond⟩

theorem isBlankText_eq_false_of_mem {line : Bytes} {b : UInt8} (hascii : b < 0x80)
    (hsolid : isUnicodeSpace (Char.ofUInt8 b) = false) (hb : b ∈ line) :
    line.isBlankText = false := by
  by_contra hblank
  rcases isBlankText_iff.mp (by simpa using hblank) with ⟨chars, rfl, hchars⟩
  rcases List.mem_flatMap.mp hb with ⟨c, hc, hmem⟩
  have hspace := List.all_eq_true.mp hchars c hc
  rw [(mem_utf8EncodeChar_iff hascii).mp hmem, hsolid] at hspace
  cases hspace

theorem isLineBreak_of_isNameByte {b : UInt8} (hb : isNameByte b = true) :
    isLineBreak b = false := by
  by_contra hbreak
  rcases isLineBreak_eq_true_iff.mp (by simpa using hbreak) with rfl | rfl <;> cases hb

/-- Squeezing blank lines leaves no method named that was not named before. -/
theorem exists_namesMethodAt_of_squeezeBlankLines {text : String} {x : Nat}
    (hnames : NamesMethodAt (ofString (squeezeBlankLines text)) x) :
    ∃ y, NamesMethodAt (ofString text) y := by
  rcases hnames with ⟨method, beyond, hdrop, hbeyond⟩
  rcases exists_mem_cutLines fun b hb =>
    isLineBreak_of_isNameByte (isNameByte_of_mem_display method b hb) with ⟨start, hmem⟩
  rw [← hdrop, List.take_append_drop] at hmem
  set line := start ++ (ofString method.display ++ beyond.takeWhile (!isLineBreak ·))
    with hspelled
  have hdot : dot ∈ line := by simp [hspelled, ofString_display]
  have hline : line ∈
      (ofString (squeezeBlankLines text)).cutLines.filter (!isBlankText ·) := by
    refine List.mem_filter.mpr ⟨hmem, ?_⟩
    rw [isBlankText_eq_false_of_mem (by decide) (by decide) hdot, Bool.not_false]
  rw [filter_cutLines_squeezeBlankLines] at hline
  rcases exists_of_mem_cutLines (List.mem_filter.mp hline).1 with ⟨before, further, htext, hends⟩
  refine ⟨before.length + start.length, method, beyond.takeWhile (!isLineBreak ·) ++ further,
    ?_, fun b hb => ?_⟩
  · rw [htext, hspelled, ← List.drop_drop, List.drop_left, List.append_assoc, List.append_assoc,
      List.drop_left]
  · cases beyond with
    | nil =>
        rcases isLineBreak_eq_true_iff.mp (hends b hb) with rfl | rfl <;> exact .inl rfl
    | cons c beyond =>
        cases hc : isLineBreak c with
        | true =>
            rw [List.takeWhile_cons_of_neg (by simp [hc]), List.nil_append] at hb
            rcases isLineBreak_eq_true_iff.mp (hends b hb) with rfl | rfl <;> exact .inl rfl
        | false =>
            rw [List.takeWhile_cons_of_pos (by simp [hc])] at hb
            exact hbeyond b hb

end LogSweep
