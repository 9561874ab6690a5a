import LogSweep.Proofs.CodeTokens
import LogSweep.Proofs.DeletedBytes

/-!
# The sweep and the pass over the parentheses

The table of parentheses comes from a pass over the code of the whole text,
made before the sweep.  That pass goes byte by byte and deletes nothing.  A
step of the sweep that deletes nothing is matched by one or more steps of the
pass, so until the first deletion the pass stands wherever the sweep does, with
the same last code byte, and it finds the parenthesis of every call met there.

Behind a deleted statement the sweep still remembers the code byte before it,
the pass its last one.  The two then differ only in what they take a `/` for.
In a text without one they stay together, since the pass comes out of the
parentheses of a call where counting does, and the ending of a statement opens
no literal.
-/

namespace LogSweep

open Byte Bytes

/-! ## The pass -/

/-- The pass over the code of a text, `codeFrom`, stands at an offset after the
code byte `prev`: where it starts, and where each of its steps leads. -/
inductive ReadsCode (src : Bytes) : Option UInt8 → Nat → Prop where
  | start : ReadsCode src none 0
  | literal {prev : Option UInt8} {offset : Nat} {b : UInt8} {tail : Bytes}
      {literal : Literal} :
      ReadsCode src prev offset → src.drop offset = b :: tail →
      Literal.opened? prev b tail = some literal →
      ReadsCode src (literal.lastCode prev) (offset + literal.length)
  | byte {prev : Option UInt8} {offset : Nat} {b : UInt8} {tail : Bytes} :
      ReadsCode src prev offset → src.drop offset = b :: tail →
      Literal.opened? prev b tail = none →
      ReadsCode src (lastCodeAfter b prev) (offset + 1)

/-- The last code byte after bytes that are all code. -/
def lastCodeThrough (prev : Option UInt8) (bytes : Bytes) : Option UInt8 :=
  bytes.foldl (fun prev b => lastCodeAfter b prev) prev

theorem lastCodeThrough_whitespace {bytes : Bytes}
    (hspaces : ∀ b ∈ bytes, isWhitespace b = true) (prev : Option UInt8) :
    lastCodeThrough prev bytes = prev := by
  induction bytes with
  | nil => rfl
  | cons b bytes ih =>
      rcases List.forall_mem_cons.mp hspaces with ⟨hb, hbytes⟩
      unfold lastCodeThrough
      rw [List.foldl_cons, lastCodeAfter, if_pos hb]
      exact ih hbytes

theorem lastCodeThrough_word {b : UInt8} {bytes : Bytes}
    (hword : ∀ c ∈ b :: bytes, isWord c = true) (prev : Option UInt8) :
    lastCodeThrough prev (b :: bytes) = some (bytes.getLastD b) := by
  have hafter : ∀ (c : UInt8) (prev : Option UInt8), isWord c = true →
      lastCodeAfter c prev = some c := by
    intro c prev hc
    unfold lastCodeAfter
    rw [if_neg]
    intro hspace
    rw [isWord_of_isWhitespace hspace] at hc
    cases hc
  induction bytes generalizing b prev with
  | nil => exact hafter b prev (hword b List.mem_cons_self)
  | cons c bytes ih =>
      have hlater : ∀ d ∈ c :: bytes, isWord d = true :=
        fun d hd => hword d (List.mem_cons_of_mem b hd)
      rw [List.getLastD_cons]
      exact ih hlater (lastCodeAfter b prev)

/-- The last code byte matters only to a slash. -/
theorem Literal.opened?_of_ne_slash {b : UInt8} (hb : b ≠ slash) (prev prev' : Option UInt8)
    (tail : Bytes) : Literal.opened? prev b tail = Literal.opened? prev' b tail := by
  unfold opened? plain?
  rw [if_neg hb, if_neg hb]

/-- The byte opens no literal, wherever it stands. -/
def NeverOpens (b : UInt8) : Prop :=
  ∀ prev tail, Literal.opened? prev b tail = none

theorem neverOpens_of_isBlank {b : UInt8} (hb : isBlank b = true) : NeverOpens b := by
  rcases isBlank_cases hb with rfl | rfl <;> exact fun _ _ => rfl

theorem SpellsEnding.neverOpens {spelled : Bytes} (hspelled : SpellsEnding spelled) :
    ∀ b ∈ spelled, NeverOpens b := by
  intro b hb
  rcases hspelled with hblank | ⟨blanks, more, rfl, hblanks, hmore⟩
  · exact neverOpens_of_isBlank (hblank b hb)
  · rcases List.mem_append.mp hb with hb | hb
    · exact neverOpens_of_isBlank (hblanks b hb)
    · rcases List.mem_cons.mp hb with rfl | hb
      · exact fun _ _ => rfl
      · exact neverOpens_of_isBlank (hmore b hb)

theorem drop_behind {src tail : Bytes} {offset : Nat} {b : UInt8}
    (hrest : src.drop offset = b :: tail) (more : Nat) :
    src.drop (offset + (more + 1)) = tail.drop more := by
  rw [← List.drop_drop, hrest, List.drop_succ_cons]

namespace ReadsCode

variable {src : Bytes} {prev : Option UInt8} {offset : Nat}

/-- Where it stands, what `codeFrom` has still to do gives all code bytes. -/
theorem exists_found (hreads : ReadsCode src prev offset) :
    ∃ found, codeFrom prev offset found (src.drop offset) = codeFrom none 0 #[] src := by
  induction hreads with
  | start => exact ⟨#[], by rw [List.drop_zero]⟩
  | @literal prev offset b tail literal _ hrest hopened ih =>
      rcases ih with ⟨found, hfound⟩
      have hlater : src.drop (offset + literal.length) = tail.drop literal.more :=
        drop_behind hrest literal.more
      exact ⟨found, by rw [← hfound, hrest, codeFrom, hopened, hlater]⟩
  | @byte prev offset b tail _ hrest hopened ih =>
      rcases ih with ⟨found, hfound⟩
      have hlater : src.drop (offset + 1) = tail := drop_behind hrest 0
      exact ⟨found.push ⟨offset, b⟩, by rw [← hfound, hrest, codeFrom, hopened, hlater]⟩

theorem exists_codeBytes_eq (hreads : ReadsCode src prev offset) :
    ∃ before, codeBytes 0 src = before ++ codeAfter prev offset (src.drop offset) := by
  rcases hreads.exists_found with ⟨found, hfound⟩
  exact ⟨found.toList, by rw [codeBytes, ← hfound, codeFrom_toList]⟩

theorem through {bytes after : Bytes} (hreads : ReadsCode src prev offset)
    (hrest : src.drop offset = bytes ++ after) (hnever : ∀ b ∈ bytes, NeverOpens b) :
    ReadsCode src (lastCodeThrough prev bytes) (offset + bytes.length) := by
  induction bytes generalizing prev offset with
  | nil => exact hreads
  | cons b bytes ih =>
      rcases List.forall_mem_cons.mp hnever with ⟨hb, hbytes⟩
      have hnext := hreads.byte hrest (hb prev (bytes ++ after))
      have hlater : src.drop (offset + 1) = bytes ++ after := drop_behind hrest 0
      have hthrough := ih hnext hlater hbytes
      rw [List.length_cons, Nat.add_comm bytes.length 1, ← Nat.add_assoc]
      exact hthrough

/-- White space leaves the last code byte as it is. -/
theorem whitespace {gap after : Bytes} (hreads : ReadsCode src prev offset)
    (hrest : src.drop offset = gap ++ after) (hgap : ∀ b ∈ gap, isWhitespace b = true) :
    ReadsCode src prev (offset + gap.length) := by
  have hthrough := hreads.through hrest
    (fun b hb => opened?_eq_none_of_isWhitespace (hgap b hb))
  rwa [lastCodeThrough_whitespace hgap] at hthrough

/-- A run of one class, none of which opens a literal. -/
theorem run {inClass : UInt8 → Bool} {b : UInt8} {tail : Bytes}
    (hreads : ReadsCode src prev offset) (hrest : src.drop offset = b :: tail)
    (hb : inClass b = true) (hnever : ∀ c, inClass c = true → NeverOpens c) :
    ReadsCode src (lastCodeThrough prev (b :: tail.take (runLength inClass tail)))
      (offset + (runLength inClass tail + 1)) := by
  have hsplit : b :: tail = b :: tail.take (runLength inClass tail) ++
      tail.drop (runLength inClass tail) := by
    rw [List.cons_append, List.take_append_drop]
  have hthrough := hreads.through (hrest.trans hsplit)
    (fun c hc => hnever c (forall_mem_run hb tail c hc))
  rwa [List.length_cons, List.length_take,
    Nat.min_eq_left (runLength_le_length inClass tail)] at hthrough

/-- The pass comes to each of the code bytes that it finds. -/
theorem at_of_mem {rest : Bytes} {c : CodeByte} (hreads : ReadsCode src prev offset)
    (hrest : src.drop offset = rest) (hmem : c ∈ codeAfter prev offset rest) :
    ∃ prev', ReadsCode src prev' c.offset := by
  fun_induction codeAfter prev offset rest with
  | case1 => cases hmem
  | case2 prev offset b tail literal hopened ih =>
      have hlater : src.drop (offset + literal.length) = tail.drop literal.more :=
        drop_behind hrest literal.more
      exact ih (hreads.literal hrest hopened) hlater hmem
  | case3 prev offset b tail hopened ih =>
      rcases List.mem_cons.mp hmem with rfl | hmem
      · exact ⟨prev, hreads⟩
      · have hlater : src.drop (offset + 1) = tail := drop_behind hrest 0
        exact ih (hreads.byte hrest hopened) hlater hmem

/-! ## Calls -/

section

variable {opening : Nat} {after : Bytes}
  (hreads : ReadsCode src prev opening) (hopening : src.drop opening = openParen :: after)

include hreads hopening

/-- An opening parenthesis that the pass comes to is in the table. -/
theorem exists_get? : ∃ partner, (ParenTable.ofText src).get? opening = some partner := by
  rcases hreads.exists_codeBytes_eq with ⟨before, hcode⟩
  rw [hopening, codeAfter_solid openParen_isSolid] at hcode
  have hmem := Pairing.mem_pairs_ofCode.mpr ⟨before, _, _, hcode, rfl, rfl, rfl⟩
  exact ⟨_, ParenTable.get?_ofText_eq_some_iff.mpr hmem⟩

/-- The pass comes to the parenthesis where counting from another ends. -/
theorem at_closing {closing : Nat}
    (hfound : closingFrom src opening openParen closeParen = .found closing) :
    ∃ prev', ReadsCode src prev' closing := by
  rw [closingFrom, codeBytes_eq_codeAfter] at hfound
  rcases closingIn_found hfound with ⟨c, hmem, rfl, -⟩
  rw [hopening, codeAfter_solid openParen_isSolid] at hmem
  apply hreads.at_of_mem hopening
  rwa [codeAfter_solid openParen_isSolid]

end

end ReadsCode

/-- The table answers for a parenthesis, so the search that would stand in for
it is never made. -/
def ParenTable.Answers (table : ParenTable) (opening : Nat) : Prop :=
  ∃ partner, table.get? opening = some partner ∧
    ∀ rest, table.closingOf opening rest = .ok partner

theorem ParenTable.answers_of_get? {table : ParenTable} {opening : Nat}
    {partner : Option Nat} (hget : table.get? opening = some partner) :
    table.Answers opening := by
  refine ⟨partner, hget, ?_⟩
  intro rest
  unfold closingOf
  rw [hget]

namespace SweepState

variable {src tail : Bytes} {state : SweepState} {prev : Option UInt8} {b : UInt8}
  {kind : Segment.Kind} {more : Nat}

theorem MeetsCall.readsCode {rest : Bytes} {method : Method} {opening : Nat}
    (hcall : state.MeetsCall rest method opening) (hrest : src.drop state.offset = rest)
    (hreads : ReadsCode src prev state.offset) :
    ∃ prev' after, ReadsCode src prev' opening ∧ src.drop opening = openParen :: after := by
  rcases hcall.spelled with ⟨gap, after, hgap, hspelled, hopening⟩
  have hnever : ∀ b ∈ ofString receiver ++ (dot :: ofString method.name ++ gap),
      NeverOpens b := by
    intro b hb
    rw [List.mem_append, List.mem_append, List.mem_cons] at hb
    rcases hb with hb | (rfl | hb) | hb
    · exact opened?_eq_none_of_isWord (isWord_of_mem_receiver b hb)
    · exact fun _ _ => rfl
    · exact opened?_eq_none_of_isWord (isWord_of_mem_name method b hb)
    · exact opened?_eq_none_of_isWhitespace (hgap b hb)
  have hbefore : src.drop state.offset =
      ofString receiver ++ (dot :: ofString method.name ++ gap) ++ openParen :: after := by
    rw [hrest, hspelled]
    simp only [List.append_assoc]
  have hthrough := hreads.through hbefore hnever
  rw [List.length_append, ← Nat.add_assoc, ← hopening] at hthrough
  refine ⟨_, after, hthrough, ?_⟩
  rw [hopening, Nat.add_assoc, ← List.length_append, ← List.drop_drop, hbefore,
    List.drop_left]

theorem MeetsCall.answers {rest : Bytes} {method : Method} {opening : Nat}
    (hcall : state.MeetsCall rest method opening) (hrest : src.drop state.offset = rest)
    (hreads : ReadsCode src prev state.offset) :
    (ParenTable.ofText src).Answers opening := by
  rcases hcall.readsCode hrest hreads with ⟨prev', after, hopening, hdrop⟩
  rcases hopening.exists_get? hdrop with ⟨partner, hget⟩
  exact ParenTable.answers_of_get? hget

/-! ## A step of the sweep -/

/-- A segment that is not deleted, read by the pass.  If it started with the
last code byte of the sweep, it also ends with that. -/
theorem NextSegment.readsCode (hsegment : NextSegment src state b tail kind more)
    (hstays : (Segment.mk kind b (tail.take more)).statement? = none)
    (hrest : src.drop state.offset = b :: tail)
    (hopened : Literal.opened? prev b tail = Literal.opened? state.last b tail)
    (hreads : ReadsCode src prev state.offset) :
    ∃ prev', ReadsCode src prev' (state.offset + (more + 1)) ∧
      (prev = state.last → prev' = (state.push ⟨kind, b, tail.take more⟩).last) := by
  have hrun : isWord b = true →
      ReadsCode src (some (Segment.mk kind b (tail.take (runLength isWord tail))).last)
        (state.offset + (runLength isWord tail + 1)) := by
    intro hb
    have hreached := hreads.run hrest hb (fun c hc => opened?_eq_none_of_isWord hc)
    rwa [lastCodeThrough_word (forall_mem_run hb tail)] at hreached
  cases hsegment with
  | @literal literal hliteral hvalue =>
      refine ⟨_, hreads.literal hrest (hopened.trans hliteral), ?_⟩
      intro
      rw [Literal.lastCode, if_pos hvalue]
      rfl
  | @comment literal hliteral hvalue =>
      refine ⟨_, hreads.literal hrest (hopened.trans hliteral), ?_⟩
      intro hlast
      rw [Literal.lastCode, hvalue]
      exact hlast
  | space hspace =>
      have hreached := hreads.run hrest hspace
        (fun c hc => opened?_eq_none_of_isWhitespace hc)
      rw [lastCodeThrough_whitespace (forall_mem_run hspace tail)] at hreached
      exact ⟨prev, hreached, fun hlast => hlast⟩
  | punctuation hliteral hspace hb =>
      refine ⟨_, hreads.byte hrest (hopened.trans hliteral), ?_⟩
      intro
      rw [lastCodeAfter, hspace]
      rfl
  | word hb => exact ⟨_, hrun hb, fun _ => rfl⟩
  | unclosed hb => exact ⟨_, hrun hb, fun _ => rfl⟩
  | refused hb => exact ⟨_, hrun hb, fun _ => rfl⟩
  | removed => simp [Segment.statement?] at hstays

/-- A deleted statement, read by the pass. -/
theorem MeetsCall.readsCode_of_judge {method : Method} {opening closing : Nat}
    {ending : Ending} (hcall : state.MeetsCall (b :: tail) method opening)
    (hrest : src.drop state.offset = b :: tail)
    (hfound : closingFrom src opening openParen closeParen = .found closing)
    (hjudge : judge state.last state.role state.onNewLine (src.drop (closing + 1)) =
      .ok ending)
    (hreads : ReadsCode src prev state.offset) :
    ∃ prev', ReadsCode src prev' (closing + 1 +
      (ending.length + state.terminatorAfter ending (src.drop (closing + 1)))) := by
  rcases hcall.readsCode hrest hreads with ⟨_, after, hopening, hdrop⟩
  rcases hopening.at_closing hdrop hfound with ⟨_, hclosing⟩
  have hparen := drop_eq_cons_of_getElem? (closingFrom_found hfound).2
  have hbehind := hclosing.byte hparen rfl
  rcases ending_spelled hjudge with
    ⟨spelled, terminator, beyond, hafter, hspelled, hlength, -, hterminator, hcases⟩
  rw [hlength, hterminator, ← List.length_append]
  have hnever : ∀ c ∈ spelled ++ terminator, NeverOpens c := by
    intro c hc
    rcases List.mem_append.mp hc with hc | hc
    · exact hspelled.neverOpens c hc
    · exact opened?_eq_none_of_isWhitespace (isWhitespace_of_mem_terminator hcases c hc)
  rw [← List.append_assoc] at hafter
  exact ⟨_, hbehind.through hafter hnever⟩

theorem deletedStatements_push_eq_nil_iff {segment : Segment} :
    deletedStatements (state.push segment).segments.toList = [] ↔
      deletedStatements state.segments.toList = [] ∧ segment.statement? = none := by
  unfold deletedStatements
  rw [toList_push_segments, List.filterMap_append, List.append_eq_nil_iff,
    List.filterMap_cons]
  cases segment.statement? with
  | none => simp
  | some statement => simp

/-! ## The whole sweep -/

/-- Until a statement is deleted, the pass stands where the sweep does, and
both know the same last code byte. -/
theorem Reaches.readsCode {rest : Bytes} (hreach : Reaches src state rest)
    (hnone : deletedStatements state.segments.toList = []) :
    ReadsCode src state.last state.offset := by
  induction hreach with
  | start => exact .start
  | @step state b tail kind more hreach hnext hcut ih =>
      rcases deletedStatements_push_eq_nil_iff.mp hnone with ⟨hearlier, hstays⟩
      have hsegment := hreach.nextSegment hnext
      rcases hsegment.readsCode hstays hreach.drop_offset.1 rfl (ih hearlier) with
        ⟨prev', hreads, hlast⟩
      rw [push_offset, length_bytes_of_cut hcut, ← hlast rfl]
      exact hreads

/-- Without a slash, the pass comes to every place where the sweep stands. -/
theorem Reaches.exists_readsCode {rest : Bytes} (hslash : slash ∉ src)
    (hreach : Reaches src state rest) : ∃ prev, ReadsCode src prev state.offset := by
  induction hreach with
  | start => exact ⟨none, .start⟩
  | @step state b tail kind more hreach hnext hcut ih =>
      rcases ih with ⟨prev, hreads⟩
      have hsegment := hreach.nextSegment hnext
      have hrest := hreach.drop_offset.1
      rw [push_offset, length_bytes_of_cut hcut]
      by_cases hstays : (Segment.mk kind b (tail.take more)).statement? = none
      · have hmem : b ∈ src.drop state.offset := hrest ▸ List.mem_cons_self
        have hb : b ≠ slash := by
          rintro rfl
          exact hslash (List.mem_of_mem_drop hmem)
        have hopened := Literal.opened?_of_ne_slash hb prev state.last tail
        rcases hsegment.readsCode hstays hrest hopened hreads with ⟨prev', hreads', -⟩
        exact ⟨prev', hreads'⟩
      · cases hsegment with
        | @removed method opening closing ending hword hcall hfound hjudge =>
            have hle := hcall.offset_lt.le.trans (closingFrom_found hfound).1
            rcases hcall.readsCode_of_judge hrest hfound hjudge hreads with ⟨prev', hreads'⟩
            refine ⟨prev', ?_⟩
            convert hreads' using 1
            omega
        | _ => exact absurd rfl hstays

end SweepState

open SweepState

/-- Until the first deletion the pass over the parentheses stands at every
offset where the sweep starts a token, white space byte by byte included, with
the same last code byte, and the table answers for every call met by then.  For
a text without a slash it answers for every call that is met at all. -/
theorem pairing_reads_like_sweep (src : Bytes) :
    (∀ state rest, Reaches src state rest →
      deletedStatements state.segments.toList = [] →
      (∀ gap after, rest = gap ++ after → (∀ b ∈ gap, isWhitespace b = true) →
        ReadsCode src state.last (state.offset + gap.length) ∧
          ∃ found, codeFrom state.last (state.offset + gap.length) found after =
            codeFrom none 0 #[] src) ∧
      ∀ method opening, state.MeetsCall rest method opening →
        (ParenTable.ofText src).Answers opening) ∧
    (slash ∉ src → ∀ state rest method opening, Reaches src state rest →
      state.MeetsCall rest method opening → (ParenTable.ofText src).Answers opening) := by
  constructor
  · intro state rest hreach hnone
    have hrest := hreach.drop_offset.1
    have hreads := hreach.readsCode hnone
    constructor
    · intro gap after hsplit hgap
      have hreached := hreads.whitespace (hrest.trans hsplit) hgap
      have hafter : src.drop (state.offset + gap.length) = after := by
        rw [← List.drop_drop, hrest, hsplit, List.drop_left]
      rcases hreached.exists_found with ⟨found, hfound⟩
      rw [hafter] at hfound
      exact ⟨hreached, found, hfound⟩
    · intro method opening hcall
      exact hcall.answers hrest hreads
  · intro hslash state rest method opening hreach hcall
    rcases hreach.exists_readsCode hslash with ⟨prev, hreads⟩
    exact hcall.answers hreach.drop_offset.1 hreads

/-- The table answers for the call that is deleted first, and for the one met
behind it. -/
theorem pairing_reads_like_sweep_behind_deleted :
    ∃ src state rest, src = ofString "console.log(1);console.log(2)" ∧ slash ∉ src ∧
      ReadsCode src none 0 ∧ (ParenTable.ofText src).Answers 11 ∧
      Reaches src state rest ∧ deletedStatements state.segments.toList ≠ [] ∧
      state.MeetsCall rest .log 26 ∧ (ParenTable.ofText src).Answers 26 := by
  have hslash : slash ∉ ofString "console.log(1);console.log(2)" := by decide
  rcases pairing_reads_like_sweep (ofString "console.log(1);console.log(2)") with
    ⟨hbefore, hbehind⟩
  rcases hbefore .initial _ .start rfl with ⟨hreads, hanswers⟩
  have hfirst : SweepState.initial.MeetsCall
      (ofString "console.log(1);console.log(2)") .log 11 :=
    ⟨by decide, [], (ofString "console.log(1);console.log(2)").drop 12, by simp,
      by decide +kernel, by decide +kernel⟩
  have hreach : Reaches (ofString "console.log(1);console.log(2)")
      (SweepState.initial.push ⟨.removed ⟨.log, 0, 1⟩ false 0, 99,
        ((ofString "console.log(1);console.log(2)").drop 1).take 14⟩)
      (((ofString "console.log(1);console.log(2)").drop 1).drop 14) :=
    .step .start (by decide +kernel) (by decide +kernel)
  have hsecond : (SweepState.initial.push ⟨.removed ⟨.log, 0, 1⟩ false 0, 99,
        ((ofString "console.log(1);console.log(2)").drop 1).take 14⟩).MeetsCall
      (((ofString "console.log(1);console.log(2)").drop 1).drop 14) .log 26 :=
    ⟨by decide +kernel, [], [50, closeParen], by simp, by decide +kernel, by decide +kernel⟩
  exact ⟨_, _, _, rfl, hslash, (hreads [] _ rfl (by simp)).1, hanswers .log 11 hfirst, hreach,
    by decide, hsecond, hbehind hslash _ _ .log 26 hreach hsecond⟩

end LogSweep
