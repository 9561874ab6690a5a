import Mathlib.Data.List.Infix
import LogSweep.Proofs.CodeBytes
import LogSweep.Proofs.ParenthesisPairing

/-!
# Literals with more text behind

Behind a text that ends with a semicolon and a line feed more text may follow.
Strings, regexes and line comments stop at the line feed at the latest, and the
semicolon before it is no backslash, so they are read as before.  A template or
block comment may go on; but if it stopped before the end of the text, it stops
there again.
-/

namespace LogSweep

open Byte Bytes

/-- The text ends with a semicolon and a line feed. -/
def EndsClosed (text : Bytes) : Prop :=
  [semicolon, newline] <:+ text

/-- The last bytes of a text that ends with a semicolon and a line feed, be they
fewer than these two. -/
def ClosedEnd (rest : Bytes) : Prop :=
  rest = [] ∨ rest = [newline] ∨ EndsClosed rest

section

variable {b : UInt8} {rest after : Bytes}

theorem EndsClosed.closedEnd (hcloses : EndsClosed rest) : ClosedEnd rest :=
  Or.inr (Or.inr hcloses)

theorem EndsClosed.tail_cases (hcloses : EndsClosed (b :: after)) :
    b = semicolon ∧ after = [newline] ∨ EndsClosed after := by
  rcases List.suffix_cons_iff.mp hcloses with hwhole | htail
  · obtain ⟨hb, htail⟩ := List.cons.inj hwhole
    exact Or.inl ⟨hb.symm, htail.symm⟩
  · exact Or.inr htail

theorem ClosedEnd.later (hend : ClosedEnd (b :: after)) : ClosedEnd after := by
  rcases hend with hnil | hnewline | hcloses
  · exact absurd hnil (List.cons_ne_nil b after)
  · exact Or.inl (List.cons.inj hnewline).2
  · rcases hcloses.tail_cases with ⟨-, rfl⟩ | htail
    · exact Or.inr (Or.inl rfl)
    · exact htail.closedEnd

theorem ClosedEnd.drop (hend : ClosedEnd rest) (count : Nat) :
    ClosedEnd (rest.drop count) := by
  induction count generalizing rest with
  | zero => exact hend
  | succ count ih =>
      cases rest with
      | nil => exact hend
      | cons b tail => exact ih hend.later

/-- Behind any other byte both are still to come. -/
theorem ClosedEnd.endsClosed (hend : ClosedEnd (b :: after)) (hnewline : b ≠ newline)
    (hsemicolon : b ≠ semicolon) : EndsClosed after := by
  rcases hend with hnil | hline | hcloses
  · exact absurd hnil (List.cons_ne_nil b after)
  · exact absurd (List.cons.inj hline).1 hnewline
  · rcases hcloses.tail_cases with ⟨hb, -⟩ | htail
    · exact absurd hb hsemicolon
    · exact htail

theorem ClosedEnd.newline_mem (hend : ClosedEnd rest) (hsome : rest ≠ []) :
    newline ∈ rest := by
  rcases hend with hnil | rfl | hcloses
  · exact absurd hnil hsome
  · exact List.mem_singleton_self newline
  · exact hcloses.subset (by simp)

theorem EndsClosed.semicolon_mem (hcloses : EndsClosed rest) : semicolon ∈ rest :=
  hcloses.subset (by simp)

theorem EndsClosed.ne_nil (hcloses : EndsClosed rest) : rest ≠ [] :=
  List.ne_nil_of_mem hcloses.semicolon_mem

end

theorem takeWhile_append_of_mem {inClass : UInt8 → Bool} {stop : UInt8} {rest : Bytes}
    (hmem : stop ∈ rest) (hstop : inClass stop = false) (more : Bytes) :
    (rest ++ more).takeWhile inClass = rest.takeWhile inClass := by
  induction rest with
  | nil => simp at hmem
  | cons b rest ih =>
      rw [List.cons_append, List.takeWhile_cons, List.takeWhile_cons]
      split_ifs with hb
      · rcases List.mem_cons.mp hmem with rfl | hmem
        · simp [hstop] at hb
        · rw [ih hmem]
      · rfl

theorem runLength_append_of_mem {inClass : UInt8 → Bool} {stop : UInt8} {rest : Bytes}
    (hmem : stop ∈ rest) (hstop : inClass stop = false) (more : Bytes) :
    runLength inClass (rest ++ more) = runLength inClass rest := by
  rw [runLength, takeWhile_append_of_mem hmem hstop more, runLength]

/-! ## One scanner after the other -/

/-- Where a scanner stands within a line that still ends: behind a backslash the
line feed is not next. -/
def LineGoesOn (escaped : Bool) (rest : Bytes) : Prop :=
  EndsClosed rest ∨ escaped = false ∧ rest = [newline]

theorem LineGoesOn.later {escaped : Bool} {b : UInt8} {tail : Bytes}
    (hline : LineGoesOn escaped (b :: tail)) (hb : escaped = true ∨ b ≠ newline) :
    LineGoesOn (!escaped && b == backslash) tail := by
  rcases hline with hcloses | ⟨rfl, hrest⟩
  · rcases hcloses.tail_cases with ⟨rfl, rfl⟩ | htail
    · have hslash : (semicolon == backslash) = false := by decide
      exact Or.inr ⟨by rw [hslash, Bool.and_false], rfl⟩
    · exact Or.inl htail
  · rcases hb with hescaped | hb
    · simp at hescaped
    · exact absurd (List.cons.inj hrest).1 hb

theorem LineGoesOn.newline_mem {escaped : Bool} {rest : Bytes}
    (hline : LineGoesOn escaped rest) : newline ∈ rest := by
  rcases hline with hcloses | ⟨-, rfl⟩
  · exact hcloses.subset (by simp)
  · exact List.mem_singleton_self newline

theorem stringTail_append {quote : UInt8} {escaped : Bool} {rest : Bytes}
    (hline : LineGoesOn escaped rest) (read : Nat) (more : Bytes) :
    stringTail quote escaped read (rest ++ more) = stringTail quote escaped read rest := by
  induction rest generalizing escaped read with
  | nil =>
      exact absurd hline.newline_mem List.not_mem_nil
  | cons b rest ih =>
      rw [List.cons_append, stringTail, stringTail]
      split_ifs with hescaped hbackslash hnewline hquote
      · exact ih (by simpa [hescaped] using hline.later (Or.inl hescaped)) (read + 1)
      · have hlater := hline.later (Or.inr (hbackslash ▸ by decide))
        exact ih (by simpa [hescaped, hbackslash] using hlater) (read + 1)
      · rfl
      · rfl
      · have hlater := hline.later (Or.inr hnewline)
        rw [beq_false_of_ne hbackslash, Bool.and_false] at hlater
        exact ih hlater (read + 1)

theorem regexTail?_append {inClass escaped : Bool} {rest : Bytes}
    (hline : LineGoesOn escaped rest) (read : Nat) (more : Bytes) :
    regexTail? inClass escaped read (rest ++ more) =
      regexTail? inClass escaped read rest := by
  induction rest generalizing inClass escaped read with
  | nil =>
      exact absurd hline.newline_mem List.not_mem_nil
  | cons b rest ih =>
      rw [List.cons_append, regexTail?, regexTail?]
      split_ifs with hescaped hbackslash hstop hclosing
      · exact ih (by simpa [hescaped] using hline.later (Or.inl hescaped)) (read + 1)
      · have hlater := hline.later (Or.inr (hbackslash ▸ by decide))
        exact ih (by simpa [hescaped, hbackslash] using hlater) (read + 1)
      · rfl
      · -- the flags stop before the line feed
        have hlater := hline.later (Or.inr fun hb => hstop (Or.inl hb))
        rw [runLength_append_of_mem hlater.newline_mem (by decide)]
      · have hlater := hline.later (Or.inr fun hb => hstop (Or.inl hb))
        rw [beq_false_of_ne hbackslash, Bool.and_false] at hlater
        exact ih hlater (read + 1)

/-- A block comment is read as before, unless it went on to the end. -/
theorem blockCommentTail_append {rest : Bytes} (hend : ClosedEnd rest) (read : Nat)
    (more : Bytes) :
    blockCommentTail read (rest ++ more) = blockCommentTail read rest ∨
      blockCommentTail read rest = read + rest.length := by
  induction rest generalizing read with
  | nil => exact Or.inr rfl
  | cons b rest ih =>
      rw [List.cons_append, blockCommentTail, blockCommentTail]
      have hhead : b = star → (rest ++ more).head? = rest.head? := by
        rintro rfl
        have hrest := (hend.endsClosed (by decide) (by decide)).ne_nil
        rw [List.head?_append_of_ne_nil rest hrest]
      by_cases hclosing : b = star ∧ rest.head? = some slash
      · rw [if_pos ⟨hclosing.1, (hhead hclosing.1).trans hclosing.2⟩, if_pos hclosing]
        exact Or.inl rfl
      · rw [if_neg fun hopen => hclosing ⟨hopen.1, (hhead hopen.1).symm.trans hopen.2⟩,
          if_neg hclosing, List.length_cons]
        rcases ih hend.later (read + 1) with hsame | hall
        · exact Or.inl hsame
        · exact Or.inr (by omega)

/-! ## Literals and comments -/

/-- What a byte opens, with more text behind: the same as before, unless that
went on to the end. -/
def OpensAlike (open? : Bytes → Option Literal) (tail more : Bytes) : Prop :=
  open? (tail ++ more) = open? tail ∨
    ∃ literal, open? tail = some literal ∧ literal.more = tail.length

theorem Literal.bySlash?_append {tail : Bytes} (hcloses : EndsClosed tail)
    (prev : Option UInt8) (more : Bytes) :
    OpensAlike (Literal.bySlash? prev) tail more := by
  cases tail with
  | nil => exact absurd rfl hcloses.ne_nil
  | cons b rest =>
      have hnewline := hcloses.closedEnd.newline_mem hcloses.ne_nil
      rw [OpensAlike, List.cons_append, bySlash?, bySlash?, ← List.cons_append]
      split_ifs with hline hblock hregex
      · rw [runLength_append_of_mem hnewline (by decide)]
        exact Or.inl rfl
      · rcases blockCommentTail_append hcloses.closedEnd.later 1 more with hsame | hall
        · rw [hsame]
          exact Or.inl rfl
        · exact Or.inr ⟨_, rfl, by simp only [hall, List.length_cons, Nat.add_comm]⟩
      · rw [regexTail?_append (Or.inl hcloses)]
        exact Or.inl rfl
      · exact Or.inl rfl

theorem Literal.plain?_append {b : UInt8} {tail : Bytes} (hend : ClosedEnd (b :: tail))
    (prev : Option UInt8) (more : Bytes) :
    OpensAlike (Literal.plain? prev b) tail more := by
  rw [OpensAlike, plain?, plain?]
  split_ifs with hquote hslash
  · have hcloses : EndsClosed tail := by
      rcases hquote with rfl | rfl <;> exact hend.endsClosed (by decide) (by decide)
    rw [stringTail_append (Or.inl hcloses)]
    exact Or.inl rfl
  · subst hslash
    exact Literal.bySlash?_append (hend.endsClosed (by decide) (by decide)) prev more
  · exact Or.inl rfl

/-- A template is read as before, unless it went on to the end. -/
theorem templateTail_append {rest : Bytes} (hend : ClosedEnd rest) (mode : TemplateMode)
    (outer : List Nat) (read : Nat) (more : Bytes) :
    templateTail mode outer read (rest ++ more) = templateTail mode outer read rest ∨
      templateTail mode outer read rest = read + rest.length := by
  have hlonger : ∀ (b : UInt8) (tail : Bytes) (read total : Nat),
      total = read + 1 + tail.length → total = read + (b :: tail).length := by
    intro b tail read total htotal
    rw [htotal, List.length_cons]
    omega
  fun_induction templateTail mode outer read rest with
  | case1 read => exact Or.inr rfl
  -- after a backslash, and at one
  | case2 outer read b tail ih =>
      rw [List.cons_append, templateTail]
      exact (ih hend.later).imp_right (hlonger b tail read _)
  | case3 outer read tail ih =>
      rw [List.cons_append, templateTail_text, if_pos rfl]
      exact (ih hend.later).imp_right (hlonger _ tail read _)
  -- a backtick closes the outermost template, or one inside a substitution
  | case4 read tail hbackslash =>
      rw [List.cons_append, templateTail_text, if_neg hbackslash, if_pos rfl]
      exact Or.inl rfl
  | case5 read tail braces outer hbackslash ih =>
      rw [List.cons_append, templateTail_text, if_neg hbackslash, if_pos rfl]
      exact (ih hend.later).imp_right (hlonger _ tail read _)
  -- `${` opens a substitution
  | case6 outer read b tail hbackslash hbacktick hopens ih =>
      have hsome : tail ≠ [] := by
        rintro rfl
        simp at hopens
      have hhead : (tail ++ more).head? = tail.head? :=
        List.head?_append_of_ne_nil tail hsome
      have hlength : 1 ≤ tail.length := List.length_pos_of_ne_nil hsome
      rw [List.cons_append, templateTail_text, if_neg hbackslash, if_neg hbacktick,
        if_pos ⟨hopens.1, hhead.trans hopens.2⟩, List.drop_append_of_le_length hlength]
      refine (ih (hend.later.drop 1)).imp_right fun hall => ?_
      rw [hall, List.length_drop, List.length_cons]
      omega
  | case7 outer read b tail hbackslash hbacktick hplain ih =>
      have hplain' : ¬ (b = dollar ∧ (tail ++ more).head? = some openBrace) := by
        rintro ⟨rfl, hhead⟩
        have hsome := (hend.endsClosed (by decide) (by decide)).ne_nil
        rw [List.head?_append_of_ne_nil tail hsome] at hhead
        exact hplain ⟨rfl, hhead⟩
      rw [List.cons_append, templateTail_text, if_neg hbackslash, if_neg hbacktick,
        if_neg hplain']
      exact (ih hend.later).imp_right (hlonger b tail read _)
  -- inside a substitution: a template, another literal, a byte of code
  | case8 outer read tail braces prev ih =>
      rw [List.cons_append, templateTail, if_pos rfl]
      exact (ih hend.later).imp_right (hlonger _ tail read _)
  | case9 outer read b tail braces prev hbacktick literal hopened ih =>
      have hle := (Literal.plain?_asciiCut hopened).le_length
      rw [List.cons_append, templateTail, if_neg hbacktick]
      rcases Literal.plain?_append hend prev more with hsame | ⟨other, hother, hall⟩
      · rw [hsame, hopened]
        simp only
        rw [List.drop_append_of_le_length hle]
        refine (ih (hend.later.drop literal.more)).imp_right fun hall => ?_
        rw [hall, List.length_drop, List.length_cons, Literal.length]
        omega
      · obtain rfl := Option.some.inj (hopened.symm.trans hother)
        right
        rw [hall, List.drop_length, templateTail, Literal.length, hall, List.length_cons]
  | case10 outer read b tail braces prev hbacktick hopened ih =>
      have hnone : Literal.plain? prev b (tail ++ more) = none := by
        rcases Literal.plain?_append hend prev more with hsame | ⟨other, hother, -⟩
        · rw [hsame, hopened]
        · simp [hopened] at hother
      rw [List.cons_append, templateTail, if_neg hbacktick, hnone]
      exact (ih hend.later).imp_right (hlonger b tail read _)

theorem Literal.opened?_append {b : UInt8} {tail : Bytes} (hend : ClosedEnd (b :: tail))
    (prev : Option UInt8) (more : Bytes) :
    OpensAlike (Literal.opened? prev b) tail more := by
  rw [OpensAlike, opened?, opened?]
  split_ifs with hbacktick
  · rcases templateTail_append hend.later .text [] 0 more with hsame | hall
    · rw [hsame]
      exact Or.inl rfl
    · exact Or.inr ⟨_, rfl, by simp only [hall, Nat.zero_add]⟩
  · exact Literal.plain?_append hend prev more

theorem Literal.opened?_append_of_none {prev : Option UInt8} {b : UInt8} {tail : Bytes}
    (hend : ClosedEnd (b :: tail)) (hopened : Literal.opened? prev b tail = none)
    (more : Bytes) : Literal.opened? prev b (tail ++ more) = none := by
  rcases Literal.opened?_append hend prev more with hsame | ⟨other, hother, -⟩
  · rw [hsame, hopened]
  · simp [hopened] at hother

theorem Literal.opened?_append_of_lt {prev : Option UInt8} {b : UInt8} {tail : Bytes}
    {literal : Literal} (hend : ClosedEnd (b :: tail))
    (hopened : Literal.opened? prev b tail = some literal)
    (hlt : literal.more < tail.length) (more : Bytes) :
    Literal.opened? prev b (tail ++ more) = some literal := by
  rcases Literal.opened?_append hend prev more with hsame | ⟨other, hother, hall⟩
  · rw [hsame, hopened]
  · obtain rfl := Option.some.inj (hopened.symm.trans hother)
    omega

/-! ## Closing brackets -/

/-- A bracket that was found is found again. -/
theorem closingIn_append {rest : Bytes} (hend : ClosedEnd rest) {opening closing : UInt8}
    {depth found : Nat} {prev : Option UInt8} {offset : Nat}
    (hfound : closingIn opening closing depth (codeAfter prev offset rest) = .found found)
    (more : Bytes) :
    closingIn opening closing depth (codeAfter prev offset (rest ++ more)) =
      .found found := by
  fun_induction codeAfter prev offset rest generalizing depth with
  | case1 => simp [closingIn] at hfound
  | case2 prev offset b tail literal hopened ih =>
      have hle := (Literal.opened?_asciiCut hopened).le_length
      rcases Nat.lt_or_eq_of_le hle with hlt | hall
      · rw [List.cons_append, codeAfter, Literal.opened?_append_of_lt hend hopened hlt]
        simp only
        rw [List.drop_append_of_le_length hle]
        exact ih (hend.later.drop literal.more) hfound
      · rw [hall, List.drop_length, codeAfter, closingIn] at hfound
        simp at hfound
  | case3 prev offset b tail hopened ih =>
      rw [List.cons_append, codeAfter, Literal.opened?_append_of_none hend hopened]
      simp only [closingIn] at hfound ⊢
      split_ifs at hfound ⊢ with hopen hclose
      · exact ih hend.later hfound
      · obtain _ | _ | depth := depth
        · simp at hfound
        · exact hfound
        · exact ih hend.later hfound
      · exact ih hend.later hfound

end LogSweep
