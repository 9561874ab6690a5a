import LogSweep.Proofs.ControlBody
import LogSweep.Proofs.SurvivingSegments

/-!
# The parentheses that a state leaves open

The heads of a state stand for the opening parentheses among its tokens that no
later token closes, each with the word before it.  A parenthesis is closed by
the first closing one behind it up to which all others match; so between the
innermost open one and the end of the tokens all parentheses match, and a
closing one that comes next closes that one or, if none is open, nothing.
-/

namespace LogSweep

open Byte Bytes

/-- At this place stands an opening parenthesis that no later token closes. -/
def IsOpenAt (tokens : List Segment) (place : Nat) : Prop :=
  ∃ opening after, tokens.drop place = opening :: after ∧
    opening.isMark openParen = true ∧
      ∀ inner closing beyond, after = inner ++ closing :: beyond → Nested inner →
        closing.isMark closeParen = false

/-! ## What is in front of an open parenthesis -/

/-- For each parenthesis that these tokens leave open, innermost first, the
tokens before it.  All of them come latest first. -/
def beforeOpen : List Segment → List (List Segment)
  | [] => []
  | token :: earlier =>
    if token.isMark openParen then earlier :: beforeOpen earlier
    else if token.isMark closeParen then (beforeOpen earlier).tail
    else beforeOpen earlier

theorem beforeOpen_opening {token : Segment} (hopening : token.isMark openParen = true)
    (earlier : List Segment) :
    beforeOpen (token :: earlier) = earlier :: beforeOpen earlier := by
  rw [beforeOpen, if_pos hopening]

theorem beforeOpen_closing {token : Segment} (hclosing : token.isMark closeParen = true)
    (earlier : List Segment) :
    beforeOpen (token :: earlier) = (beforeOpen earlier).tail := by
  have hother := Segment.isMark_eq_false_of_isMark hclosing
    (show closeParen ≠ openParen by decide)
  rw [beforeOpen, if_neg (by simp [hother]), if_pos hclosing]

theorem beforeOpen_other {token : Segment} (hopening : token.isMark openParen = false)
    (hclosing : token.isMark closeParen = false) (earlier : List Segment) :
    beforeOpen (token :: earlier) = beforeOpen earlier := by
  rw [beforeOpen, if_neg (by simp [hopening]), if_neg (by simp [hclosing])]

/-- The heads are told by the words in front of the open parentheses. -/
theorem openHeads_eq_map_beforeOpen (tokens : List Segment) :
    openHeads tokens = (beforeOpen tokens).map (lastIsWord headKeywords) := by
  induction tokens with
  | nil => rfl
  | cons token earlier ih =>
      unfold openHeads beforeOpen
      rw [ih]
      split_ifs
      · rw [List.map_cons]
      · rw [List.map_tail]
      · rfl

theorem length_lt_of_mem_beforeOpen {tokens before : List Segment}
    (hmem : before ∈ beforeOpen tokens) : before.length < tokens.length := by
  induction tokens with
  | nil => cases hmem
  | cons token earlier ih =>
      unfold beforeOpen at hmem
      rw [List.length_cons]
      split_ifs at hmem
      · rcases List.mem_cons.mp hmem with rfl | hmem
        · exact Nat.lt_succ_self _
        · exact (ih hmem).trans (Nat.lt_succ_self _)
      · exact (ih (List.mem_of_mem_tail hmem)).trans (Nat.lt_succ_self _)
      · exact (ih hmem).trans (Nat.lt_succ_self _)

theorem beforeOpen_pairwise (tokens : List Segment) :
    (beforeOpen tokens).Pairwise (fun inner outer => outer.length < inner.length) := by
  induction tokens with
  | nil => exact .nil
  | cons token earlier ih =>
      unfold beforeOpen
      split_ifs
      · exact .cons (fun outer houter => length_lt_of_mem_beforeOpen houter) ih
      · exact ih.tail
      · exact ih

/-- Tokens in which all parentheses match leave open what was open. -/
theorem beforeOpen_reverse_nested {inner : List Segment} (hinner : Nested inner)
    (earlier : List Segment) :
    beforeOpen (inner.reverse ++ earlier) = beforeOpen earlier := by
  induction hinner generalizing earlier with
  | nil => rfl
  | single hopening hclosing => exact beforeOpen_other hopening hclosing earlier
  | append _ _ ihfirst ihsecond =>
      rw [List.reverse_append, List.append_assoc, ihsecond, ihfirst]
  | @group opening closing inner hopening hclosing _ ih =>
      have hreverse : (opening :: inner ++ [closing]).reverse ++ earlier =
          closing :: (inner.reverse ++ opening :: earlier) := by
        simp
      rw [hreverse, beforeOpen_closing hclosing, ih, beforeOpen_opening hopening,
        List.tail_cons]

/-- Behind the innermost open parenthesis all parentheses match. -/
theorem exists_nested_of_beforeOpen {tokens before : List Segment}
    {others : List (List Segment)} (hopen : beforeOpen tokens = before :: others) :
    ∃ inner opening, tokens = inner.reverse ++ opening :: before ∧
      opening.isMark openParen = true ∧ Nested inner ∧ beforeOpen before = others := by
  induction hlength : tokens.length using Nat.strong_induction_on
    generalizing tokens before others with
  | _ length ih =>
      cases tokens with
      | nil => cases hopen
      | cons token earlier =>
          have hearlier : earlier.length < length := by
            rw [← hlength, List.length_cons]
            exact Nat.lt_succ_self _
          unfold beforeOpen at hopen
          split_ifs at hopen with hopening hclosing
          · rcases List.cons.inj hopen with ⟨rfl, hothers⟩
            exact ⟨[], token, rfl, hopening, .nil, hothers⟩
          · -- the token closes the innermost one, which leaves the next to it
            cases houter : beforeOpen earlier with
            | nil =>
                rw [houter] at hopen
                cases hopen
            | cons closed outer =>
                rw [houter, List.tail_cons] at hopen
                rcases ih _ hearlier houter rfl with
                  ⟨inner, opening, rfl, hmark, hinner, hclosed⟩
                have hshorter : closed.length < length := by
                  rw [List.length_append, List.length_cons] at hearlier
                  omega
                rcases ih _ hshorter (hclosed.trans hopen) rfl with
                  ⟨inner', opening', rfl, hmark', hinner', hbefore⟩
                refine ⟨inner' ++ (opening :: inner ++ [token]), opening', ?_, hmark',
                  hinner'.append (.group hmark hclosing hinner), hbefore⟩
                simp
          · rcases ih _ hearlier hopen rfl with
              ⟨inner, opening, rfl, hmark, hinner, hbefore⟩
            have hsingle : Nested [token] :=
              .single (by simpa using hopening) (by simpa using hclosing)
            refine ⟨inner ++ [token], opening, ?_, hmark, hinner.append hsingle, hbefore⟩
            simp

/-! ## Which parentheses are open -/

/-- More tokens leave nothing open further ahead than what was open there. -/
theorem mem_beforeOpen_of_append {later tokens before : List Segment}
    (hmem : before ∈ beforeOpen (later ++ tokens)) (hlt : before.length < tokens.length) :
    before ∈ beforeOpen tokens := by
  induction later with
  | nil => exact hmem
  | cons token later ih =>
      apply ih
      rw [List.cons_append] at hmem
      unfold beforeOpen at hmem
      split_ifs at hmem
      · rcases List.mem_cons.mp hmem with rfl | hmem
        · rw [List.length_append] at hlt
          omega
        · exact hmem
      · exact List.mem_of_mem_tail hmem
      · exact hmem

theorem notMem_beforeOpen_of_closed {inner before : List Segment} {opening closing : Segment}
    (hopening : opening.isMark openParen = true) (hinner : Nested inner)
    (hclosing : closing.isMark closeParen = true) (beyond : List Segment) :
    before ∉ beforeOpen (beyond ++ closing :: (inner.reverse ++ opening :: before)) := by
  intro hmem
  have hclosed := mem_beforeOpen_of_append hmem (by simp; omega)
  rw [beforeOpen_closing hclosing, beforeOpen_reverse_nested hinner,
    beforeOpen_opening hopening, List.tail_cons] at hclosed
  exact lt_irrefl _ (length_lt_of_mem_beforeOpen hclosed)

theorem mem_beforeOpen_of_never_closed {after before : List Segment} {opening : Segment}
    (hopening : opening.isMark openParen = true)
    (hnever : ∀ inner closing beyond, after = inner ++ closing :: beyond → Nested inner →
      closing.isMark closeParen = false) :
    before ∈ beforeOpen (after.reverse ++ opening :: before) := by
  induction after using List.reverseRecOn with
  | nil =>
      rw [List.reverse_nil, List.nil_append, beforeOpen_opening hopening]
      exact List.mem_cons_self
  | append_singleton after token ih =>
      have hmem := ih fun inner closing beyond hafter hinner =>
        hnever inner closing (beyond ++ [token]) (by rw [hafter]; simp) hinner
      rw [List.reverse_append, List.reverse_singleton, List.singleton_append, List.cons_append]
      unfold beforeOpen
      split_ifs with hmark hclosing
      · exact List.mem_cons_of_mem _ hmem
      · -- a closing one would close this one if it were the innermost
        cases hopen : beforeOpen (after.reverse ++ opening :: before) with
        | nil =>
            rw [hopen] at hmem
            cases hmem
        | cons innermost others =>
            rw [hopen] at hmem
            rcases List.mem_cons.mp hmem with rfl | hmem
            · rcases exists_nested_of_beforeOpen hopen with
                ⟨inner, opening', htokens, -, hinner, -⟩
              have hsame : after.reverse = inner.reverse :=
                (List.append_inj' htokens (by simp)).1
              rw [List.reverse_inj] at hsame
              rw [hnever inner token [] (by rw [hsame]) hinner] at hclosing
              cases hclosing
            · exact hmem
      · exact hmem

theorem exists_opening_of_mem_beforeOpen {tokens before : List Segment}
    (hmem : before ∈ beforeOpen tokens) :
    ∃ later opening, tokens = later ++ opening :: before ∧
      opening.isMark openParen = true := by
  induction tokens with
  | nil => cases hmem
  | cons token earlier ih =>
      have hlater : before ∈ beforeOpen earlier → ∃ later opening,
          token :: earlier = later ++ opening :: before ∧
            opening.isMark openParen = true := by
        intro hmem
        rcases ih hmem with ⟨later, opening, rfl, hopening⟩
        exact ⟨token :: later, opening, rfl, hopening⟩
      unfold beforeOpen at hmem
      split_ifs at hmem with hopening
      · rcases List.mem_cons.mp hmem with rfl | hmem
        · exact ⟨[], token, rfl, hopening⟩
        · exact hlater hmem
      · exact hlater (List.mem_of_mem_tail hmem)
      · exact hlater hmem

theorem take_length_of_mem_beforeOpen {tokens before : List Segment}
    (hmem : before ∈ beforeOpen tokens.reverse) : tokens.take before.length = before.reverse := by
  rcases exists_opening_of_mem_beforeOpen hmem with ⟨later, opening, hsplit, -⟩
  have htokens : tokens = before.reverse ++ opening :: later.reverse := by
    rw [← List.reverse_reverse tokens, hsplit]
    simp
  rw [htokens, ← List.length_reverse, List.take_left]

/-- The places of the open parentheses are how many tokens are before them. -/
theorem mem_map_length_beforeOpen_iff {tokens : List Segment} {place : Nat} :
    place ∈ (beforeOpen tokens.reverse).map List.length ↔ IsOpenAt tokens place := by
  rw [List.mem_map]
  constructor
  · rintro ⟨before, hmem, rfl⟩
    rcases exists_opening_of_mem_beforeOpen hmem with ⟨later, opening, hsplit, hopening⟩
    have hdrop : tokens.drop before.length = opening :: later.reverse := by
      rw [← List.reverse_reverse tokens, hsplit, List.reverse_append, List.reverse_cons,
        List.append_assoc, ← List.length_reverse, List.drop_left, List.singleton_append]
    refine ⟨opening, later.reverse, hdrop, hopening, ?_⟩
    intro inner closing beyond hafter hinner
    by_contra hclosing
    rw [Bool.not_eq_false] at hclosing
    have hlater : later = beyond.reverse ++ closing :: inner.reverse := by
      rw [← List.reverse_reverse later, hafter]
      simp
    rw [hsplit, hlater, List.append_assoc, List.cons_append] at hmem
    exact notMem_beforeOpen_of_closed hopening hinner hclosing _ hmem
  · rintro ⟨opening, after, hdrop, hopening, hnever⟩
    have hlt : place < tokens.length := by
      rw [← List.drop_eq_nil_iff.not.trans Nat.not_le, hdrop]
      exact List.cons_ne_nil _ _
    have hsplit : tokens.reverse =
        after.reverse ++ opening :: (tokens.take place).reverse := by
      conv => lhs; rw [← List.take_append_drop place tokens, hdrop]
      simp
    refine ⟨(tokens.take place).reverse, ?_, ?_⟩
    · rw [hsplit]
      exact mem_beforeOpen_of_never_closed hopening hnever
    · rw [List.length_reverse, List.length_take, Nat.min_eq_left hlt.le]

/-! ## What the words before them tell -/

theorem lastIsWord_reverse_iff {words : List Bytes} {tokens : List Segment} :
    lastIsWord words tokens.reverse = true ↔ EndsInWord words tokens := by
  refine ⟨fun hlast => ?_, EndsInWord.lastIsWord⟩
  cases htokens : tokens.reverse with
  | nil =>
      rw [htokens] at hlast
      cases hlast
  | cons token earlier =>
      rw [htokens] at hlast
      refine ⟨earlier.reverse, token, ?_, hlast⟩
      rw [← List.reverse_reverse tokens, htokens, List.reverse_cons]

theorem completesHead_reverse_iff {tokens : List Segment} :
    completesHead tokens.reverse = true ↔ ExpectsBody tokens := by
  refine ⟨fun hcompletes => ?_, ExpectsBody.completesHead⟩
  cases htokens : tokens.reverse with
  | nil =>
      rw [htokens] at hcompletes
      cases hcompletes
  | cons token earlier =>
      have hsplit : tokens = earlier.reverse ++ [token] := by
        rw [← List.reverse_reverse tokens, htokens, List.reverse_cons]
      rw [htokens, completesHead, Bool.or_eq_true_iff, Bool.and_eq_true, beq_iff_eq,
        openHeads_eq_map_beforeOpen] at hcompletes
      rcases hcompletes with hword | ⟨hclosing, hhead⟩
      · exact Or.inl ⟨earlier.reverse, token, hsplit, hword⟩
      · cases hopen : beforeOpen earlier with
        | nil =>
            rw [hopen] at hhead
            cases hhead
        | cons before others =>
            rcases exists_nested_of_beforeOpen hopen with
              ⟨inner, opening, hearlier, hopening, hinner, -⟩
            rw [hopen, List.map_cons, List.head?_cons, Option.some.injEq,
              ← List.reverse_reverse before, lastIsWord_reverse_iff] at hhead
            refine Or.inr ⟨before.reverse, ⟨opening, inner, token, ?_, hopening, hinner,
              hclosing⟩, hhead⟩
            rw [hsplit, hearlier]
            simp

/-- The places, in order, of the parentheses that the tokens leave open, and for
each whether a word that a head follows is the token before it. -/
structure ListsOpen (tokens : List Segment) (heads : List Bool) (places : List Nat) :
    Prop where
  increasing : places.Pairwise (· < ·)
  mem_iff : ∀ place, place ∈ places ↔ IsOpenAt tokens place
  marked :
    List.Forall₂
      (fun head place => head = true ↔ EndsInWord headKeywords (tokens.take place))
      heads places

theorem listsOpen_openHeads (tokens : List Segment) :
    ListsOpen tokens (openHeads tokens.reverse).reverse
      ((beforeOpen tokens.reverse).map List.length).reverse := by
  constructor
  · rw [List.pairwise_reverse, List.pairwise_map]
    exact beforeOpen_pairwise tokens.reverse
  · intro place
    rw [List.mem_reverse, mem_map_length_beforeOpen_iff]
  · rw [List.forall₂_reverse_iff, openHeads_eq_map_beforeOpen, List.forall₂_map_left_iff,
      List.forall₂_map_right_iff, List.forall₂_same]
    intro before hmem
    rw [take_length_of_mem_beforeOpen hmem, ← lastIsWord_reverse_iff, List.reverse_reverse]

theorem codeTokens_surviving (atEnd : Bool) (segments : List Segment) :
    codeTokens (surviving atEnd segments) = codeTokens segments := by
  induction segments with
  | nil => rfl
  | cons segment rest ih =>
      unfold surviving
      split_ifs with hdropped
      · have htoken : segment.isToken = false := by
          unfold Segment.isDropped at hdropped
          unfold Segment.isToken
          cases hkind : segment.kind <;> simp_all
        unfold codeTokens at ih ⊢
        rw [ih, List.filter_cons_of_neg (by simp [htoken])]
      · unfold codeTokens at ih ⊢
        rw [List.filter_cons, List.filter_cons, ih]

namespace SweepState

/-- In every state of a sweep the heads are those of the parentheses that the
code written so far leaves open, and the body of a statement comes next if and
only if that code ends in `else`, in `do`, or in a group behind a word that a
head follows. -/
theorem Reaches.heads_match_written {src : Bytes} {state : SweepState} {rest : Bytes}
    (hreach : Reaches src state rest) :
    ∃ left places, state.output = segmentsText left ∧ codeTokens left = state.tokens ∧
      ListsOpen state.tokens state.heads.reverse places ∧
      (state.role = .beforeBody ↔ ExpectsBody state.tokens) := by
  have htracks := hreach.tracksHeads
  have hlists := listsOpen_openHeads state.tokens
  rw [← htracks.heads] at hlists
  have hbody : state.role = .beforeBody ↔ ExpectsBody state.tokens := by
    rw [htracks.body, completesHead_reverse_iff]
  exact ⟨surviving false state.segments.toList, _, hreach.writesSurviving.output,
    codeTokens_surviving false _, hlists, hbody⟩

/-- A deleted call and a comment count for nothing, and neither does a closing
parenthesis where none is open. -/
theorem heads_match_written_inner_group :
    ∃ state, Reaches (ofString "console.log((1));\n) for (if /* ( */ (a)") state [] ∧
      state.output = ofString ") for (if /* ( */ (a)" ∧
      state.heads = [true] ∧ state.role = .beforeBody ∧ ExpectsBody state.tokens ∧
      ∃ places, ListsOpen state.tokens [true] places := by
  rcases exists_sweepText "console.log((1));\n) for (if /* ( */ (a)" with
    ⟨state, report, hsweep, hreach, -⟩
  have hstate : (sweep (ofString "console.log((1));\n) for (if /* ( */ (a)")).map
      (fun state => (state.output, state.heads, state.role)) =
        .ok (ofString ") for (if /* ( */ (a)", [true], .beforeBody) := by
    decide +kernel
  rw [hsweep] at hstate
  simp only [Except.map, Except.ok.injEq, Prod.mk.injEq] at hstate
  rcases hstate with ⟨houtput, hheads, hrole⟩
  rcases hreach.heads_match_written with ⟨left, places, -, -, hlists, hbody⟩
  rw [hheads] at hlists
  exact ⟨state, hreach, houtput, hheads, hrole, hbody.mp hrole, places, hlists⟩

end SweepState
end LogSweep
