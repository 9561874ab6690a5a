import LogSweep.Proofs.DeletedCall

/-!
# What follows a deleted call does not use its value

Behind the closing parenthesis of a call, a semicolon or a comment ends the
statement, and what comes after it is not looked at.  Without either, the next
byte that is not white space must not go on with the expression, and on the
same line it must be a closing brace.
-/

namespace LogSweep

open Byte Bytes SweepState

/-- Only spaces and tabs stand in front of a semicolon. -/
def IsTerminated (after : Bytes) : Prop :=
  ∃ blanks further, after = blanks ++ semicolon :: further ∧
    ∀ b ∈ blanks, isBlank b = true

/-- What is left from the first byte on that is neither white space nor part of
a comment. -/
def codeAhead : Bytes → Bytes
  | [] => []
  | b :: tail =>
    if isWhitespace b then codeAhead tail
    else if opensComment (b :: tail) then
      match Literal.bySlash? none tail with
      | some comment => codeAhead (tail.drop comment.more)
      | none => b :: tail
    else b :: tail
termination_by rest => rest.length
decreasing_by all_goals simp only [List.length_cons, List.length_drop]; omega

/-- The code behind a call, white space and comments left aside, does not go on
with its expression, and on the same line it is a closing brace. -/
def LeavesValueUnused (after : Bytes) : Prop :=
  ∀ between b further, after = between ++ b :: further →
    codeAhead after = b :: further →
      isConnective b = false ∧ b ≠ backtick ∧
        (newline ∉ between → carriageReturn ∉ between → b = closeBrace)

theorem codeAhead_of_not_opensComment {rest : Bytes}
    (hcomment : opensComment (rest.dropWhile isWhitespace) = false) :
    codeAhead rest = rest.dropWhile isWhitespace := by
  induction rest with
  | nil => simp [codeAhead]
  | cons b rest ih =>
      cases hb : isWhitespace b with
      | true =>
          rw [List.dropWhile_cons_of_pos hb] at hcomment ⊢
          rw [codeAhead, if_pos hb]
          exact ih hcomment
      | false =>
          have hstays : (b :: rest).dropWhile isWhitespace = b :: rest := by
            simp [hb]
          rw [hstays] at hcomment ⊢
          rw [codeAhead]
          simp [hb, hcomment]

theorem isWhitespace_of_isBlank {b : UInt8} (hb : isBlank b = true) :
    isWhitespace b = true := by
  rcases isBlank_cases hb with rfl | rfl <;> decide

theorem atLineEnd_cons {b : UInt8} {rest : Bytes} :
    atLineEnd (b :: rest) = true ↔ b = newline ∨ b = carriageReturn := by
  simp [atLineEnd]

theorem endsBefore_cons {b : UInt8} {rest : Bytes} :
    endsBefore (b :: rest) = true ↔
      b = closeBrace ∨ opensComment (b :: rest) = true := by
  simp [endsBefore]

theorem isTerminated_iff {after : Bytes} :
    IsTerminated after ↔ (after.dropWhile isBlank).head? = some semicolon := by
  constructor
  · rintro ⟨blanks, further, rfl, hblanks⟩
    rw [List.dropWhile_append_of_pos hblanks]
    rfl
  · intro hhead
    obtain ⟨further, hafter⟩ := List.head?_eq_some_iff.mp hhead
    refine ⟨after.takeWhile isBlank, further, ?_, fun b hb =>
      List.mem_takeWhile_imp hb⟩
    rw [← hafter, List.takeWhile_append_dropWhile]

/-! ## What the ending tells -/

section

variable {rest gap further : Bytes} {b : UInt8}

theorem dropWhile_isBlank_append (hb : isBlank b = false) :
    (gap ++ b :: further).dropWhile isBlank =
      gap.dropWhile isBlank ++ b :: further := by
  rw [List.dropWhile_append]
  split_ifs with hall
  · have hnil : gap.dropWhile isBlank = [] := by simpa using hall
    rw [hnil, List.nil_append, List.dropWhile_cons_of_neg (by simp [hb])]
  · rfl

theorem mem_of_dropWhile_eq_cons {inClass : UInt8 → Bool} {c : UInt8}
    {later : Bytes} (hlater : gap.dropWhile inClass = c :: later) :
    ∀ d ∈ c :: later, d ∈ gap := by
  intro d hd
  rw [← hlater] at hd
  exact (List.dropWhile_sublist inClass).subset hd

/-- Whether the statement ends, said by the white space behind a call and the
byte that it leads up to.  On the same line a semicolon, a closing brace or a
comment ends it; on another line, all that does not go on with the
expression. -/
theorem Ending.complete_append
    (hgap : ∀ c ∈ gap, isWhitespace c = true) (hb : isWhitespace b = false) :
    (Ending.read (gap ++ b :: further)).complete =
      match gap.dropWhile isBlank with
      | [] => b == semicolon || endsBefore (b :: further)
      | c :: _ =>
        (c == newline || c == carriageReturn) &&
          !continuesLine (b :: further) := by
  have hblank : isBlank b = false := by
    by_contra hblank
    rw [isWhitespace_of_isBlank (by simpa using hblank)] at hb
    simp at hb
  rw [Ending.read, drop_runLength, dropWhile_isBlank_append hblank]
  cases hlater : gap.dropWhile isBlank with
  | nil =>
      have hline : atLineEnd (b :: further) ≠ true := by
        rw [Ne, atLineEnd_cons]
        rintro (rfl | rfl) <;> simp [isWhitespace] at hb
      simp only [List.nil_append, if_neg hline]
      split_ifs with hsemicolon <;> simp [hsemicolon]
  | cons c later =>
      have hspace : ∀ d ∈ c :: later, isWhitespace d = true :=
        fun d hd => hgap d (mem_of_dropWhile_eq_cons hlater d hd)
      have hnext : (c :: (later ++ b :: further)).dropWhile isWhitespace =
          b :: further := by
        rw [← List.cons_append, List.dropWhile_append_of_pos hspace,
          List.dropWhile_cons_of_neg (by simp [hb])]
      have hc : isBlank c = false := by
        have hhead := List.head?_dropWhile_not isBlank gap
        rw [hlater] at hhead
        simpa using hhead
      rw [List.cons_append]
      simp only
      rw [hnext]
      rcases isWhitespace_cases (hspace c (by simp)) with
        rfl | rfl | rfl | rfl | rfl
      · simp [isBlank] at hc
      · simp [isBlank] at hc
      · rfl
      · -- a form feed ends neither the line nor the statement
        cases later <;> rfl
      · rfl

/-- Where no semicolon and no comment end the statement, the byte behind the
white space does. -/
theorem Ending.next_of_complete
    (hcomplete : (Ending.read (gap ++ b :: further)).complete = true)
    (hopen : ¬ IsTerminated (gap ++ b :: further))
    (hgap : ∀ c ∈ gap, isWhitespace c = true)
    (hb : isWhitespace b = false)
    (hcomment : opensComment (b :: further) = false) :
    isConnective b = false ∧ b ≠ backtick ∧
      (newline ∉ gap → carriageReturn ∉ gap → b = closeBrace) := by
  rw [Ending.complete_append hgap hb] at hcomplete
  cases hlater : gap.dropWhile isBlank with
  | nil =>
      have hsemicolon : b ≠ semicolon := by
        rintro rfl
        apply hopen
        rw [isTerminated_iff, dropWhile_isBlank_append (by decide), hlater]
        rfl
      have hbrace : b = closeBrace := by
        simpa [hlater, hsemicolon, endsBefore_cons, hcomment] using hcomplete
      subst hbrace
      exact ⟨by decide, by decide, fun _ _ => rfl⟩
  | cons c later =>
      have hmem := mem_of_dropWhile_eq_cons hlater c (by simp)
      simp only [hlater, continuesLine, hcomment] at hcomplete
      have hcases : (c = newline ∨ c = carriageReturn) ∧
          isConnective b = false ∧ b ≠ backtick := by
        simpa using hcomplete
      refine ⟨hcases.2.1, hcases.2.2, fun hnewline hreturn => ?_⟩
      rcases hcases.1 with rfl | rfl
      · exact absurd hmem hnewline
      · exact absurd hmem hreturn

theorem leavesValueUnused_of_complete
    (hcomplete : (Ending.read rest).complete = true)
    (hopen : ¬ IsTerminated rest)
    (hcomment : opensComment (rest.dropWhile isWhitespace) = false) :
    LeavesValueUnused rest := by
  intro between b further hsplit hahead
  rw [codeAhead_of_not_opensComment hcomment] at hahead
  have hgap : between = rest.takeWhile isWhitespace := by
    have hsame := List.takeWhile_append_dropWhile (p := isWhitespace) (l := rest)
    rw [hahead] at hsame
    exact List.append_cancel_right (hsplit.symm.trans hsame.symm)
  have hspace : ∀ c ∈ between, isWhitespace c = true := by
    rw [hgap]
    exact fun c hc => List.mem_takeWhile_imp hc
  have hb : isWhitespace b = false := by
    have hhead := List.head?_dropWhile_not isWhitespace rest
    rw [hahead] at hhead
    simpa using hhead
  rw [hahead] at hcomment
  subst hsplit
  exact Ending.next_of_complete hcomplete hopen hspace hb hcomment

end

/-! ## Where the look ahead stops -/

/-- Bytes behind a call that settle whether its statement ends: blanks and a
semicolon, or white space and the two bytes that open a comment. -/
inductive SettlesEnding : Bytes → Prop where
  | semicolon {blanks : Bytes} :
      (∀ b ∈ blanks, isBlank b = true) →
      SettlesEnding (blanks ++ [Byte.semicolon])
  | comment {gap : Bytes} {second : UInt8} :
      (∀ b ∈ gap, isWhitespace b = true) → (second = slash ∨ second = star) →
      SettlesEnding (gap ++ [slash, second])

theorem SettlesEnding.complete_eq {front : Bytes}
    (hsettles : SettlesEnding front) (further other : Bytes) :
    (Ending.read (front ++ further)).complete =
      (Ending.read (front ++ other)).complete := by
  cases hsettles with
  | @semicolon blanks hblanks =>
      have hspace : ∀ b ∈ blanks, isWhitespace b = true :=
        fun b hb => isWhitespace_of_isBlank (hblanks b hb)
      have hnil : blanks.dropWhile isBlank = [] :=
        List.dropWhile_eq_nil_iff.mpr hblanks
      simp only [List.append_assoc, List.cons_append, List.nil_append]
      rw [Ending.complete_append hspace (by decide),
        Ending.complete_append hspace (by decide), hnil]
      simp
  | @comment gap second hgap hsecond =>
      have hopens : ∀ later, opensComment (slash :: second :: later) = true := by
        intro later
        simpa [opensComment] using hsecond
      simp only [List.append_assoc, List.cons_append, List.nil_append]
      rw [Ending.complete_append hgap (by decide),
        Ending.complete_append hgap (by decide)]
      simp [endsBefore, continuesLine, hopens]

/-- Whether a call may be deleted does not depend on what comes behind. -/
theorem SettlesEnding.judge_iff {front : Bytes}
    (hsettles : SettlesEnding front) (further other : Bytes)
    (last : Option UInt8) (role : Role) (onNewLine : Bool) :
    (∃ ending, judge last role onNewLine (front ++ further) = .ok ending) ↔
      ∃ ending, judge last role onNewLine (front ++ other) = .ok ending := by
  simp only [judge_eq_ok_iff, hsettles.complete_eq further other,
    exists_and_left, exists_eq']

/-! ## Deleted calls -/

/-- The value of a call that a sweep deletes is not used, unless a semicolon
ends the statement or a comment comes first behind it. -/
theorem sweepText_removes_unused_values (text : String) :
    ∃ report, sweepText text = .ok report ∧
      ∀ call ∈ report.removed, ∃ state rest opening closing ending,
        DeletesCall (ofString text) state rest call opening closing ending ∧
        (IsTerminated ((ofString text).drop (closing + 1)) ∨
          opensComment (((ofString text).drop (closing + 1)).dropWhile
            isWhitespace) = true ∨
          LeavesValueUnused ((ofString text).drop (closing + 1))) := by
  obtain ⟨-, report, -, -, hreport, -, -⟩ := exists_sweepText text
  refine ⟨report, hreport, fun call hmem => ?_⟩
  obtain ⟨state, rest, opening, closing, ending, hdeletes⟩ :=
    exists_deletesCall hreport hmem
  refine ⟨state, rest, opening, closing, ending, hdeletes, ?_⟩
  obtain ⟨-, -, hcomplete, -⟩ := judge_eq_ok_iff.mp hdeletes.judged
  by_cases hterminated : IsTerminated ((ofString text).drop (closing + 1))
  · exact Or.inl hterminated
  · right
    cases hcomment : opensComment (((ofString text).drop (closing + 1)).dropWhile
        isWhitespace) with
    | true => exact Or.inl rfl
    | false =>
        exact Or.inr
          (leavesValueUnused_of_complete hcomplete hterminated hcomment)

/-- A comment hides the method that is called on the value of the call. -/
theorem sweepText_removes_value_behind_comment :
    ∃ state rest ending,
      sweepText "console.log(x) // y\n  .then(z)\n" =
        .ok ⟨"// y\n  .then(z)\n", [.removed ⟨.log, 0, 1⟩]⟩ ∧
      DeletesCall (ofString "console.log(x) // y\n  .then(z)\n") state rest
        ⟨.log, 0, 1⟩ 11 13 ending ∧
      ¬ IsTerminated
        ((ofString "console.log(x) // y\n  .then(z)\n").drop 14) ∧
      ¬ LeavesValueUnused
        ((ofString "console.log(x) // y\n  .then(z)\n").drop 14) := by
  have hmeets : initial.MeetsCall
      (ofString "console.log(x) // y\n  .then(z)\n") .log 11 :=
    ⟨by decide, [], (ofString "console.log(x) // y\n  .then(z)\n").drop 12,
      by simp, by decide +kernel, by decide +kernel⟩
  refine ⟨.initial, _, ⟨1, false, true⟩, by decide +kernel,
    ⟨.start, rfl, hmeets, by decide +kernel, by decide +kernel⟩, ?_, ?_⟩
  · rw [isTerminated_iff]
    decide +kernel
  · intro hunused
    have hnext := hunused (ofString " // y\n  ") dot (ofString "then(z)\n")
      (by decide +kernel) (by decide +kernel)
    exact absurd hnext.1 (by decide)

end LogSweep
