import LogSweep.Proofs.CallSpelling

/-!
# Literals that hold line feeds

A string or a regex is read on one line, unless a backslash escapes the line
feed.  So a text in which no backslash stands right before a line feed has no
such literal, neither at the top nor in a template or between the parentheses
of a call.
-/

namespace LogSweep

open Byte Bytes

/-- Whether this literal, whose bytes after the first come from `tail`, is a
string or a regex that holds a line feed. -/
def Literal.spansLines (literal : Literal) (tail : Bytes) : Bool :=
  (literal.kind == .string || literal.kind == .regex) &&
    (tail.take literal.more).contains newline

/-- Whether a string or regex in the substitutions of a template holds a line
feed; the template is read as by `templateTail`. -/
def templateSpansLines (mode : TemplateMode) (outer : List Nat) : Bytes → Bool
  | [] => false
  | b :: tail =>
    match mode with
    | .escape => templateSpansLines .text outer tail
    | .text =>
      if b = backslash then templateSpansLines .escape outer tail
      else if b = backtick then
        match outer with
        | [] => false
        | braces :: outer => templateSpansLines (.resume braces) outer tail
      else if b = dollar ∧ tail.head? = some openBrace then
        templateSpansLines (.code 0 (some openBrace)) outer (tail.drop 1)
      else templateSpansLines .text outer tail
    | .code braces prev =>
      if b = backtick then templateSpansLines .text (braces :: outer) tail
      else
        match Literal.plain? prev b tail with
        | some literal =>
          literal.spansLines tail ||
            templateSpansLines (.code braces (literal.lastCode prev)) outer
              (tail.drop literal.more)
        | none => templateSpansLines (.afterCode braces prev b) outer tail
termination_by rest => rest.length
decreasing_by all_goals simp only [List.length_cons, List.length_drop]; omega

/-- Whether the literal that the byte `b` opens is or holds a string or regex
with a line feed. -/
def opensAcrossLines (prev : Option UInt8) (b : UInt8) (tail : Bytes) : Bool :=
  if b = backtick then templateSpansLines .text [] tail
  else (Literal.plain? prev b tail).any (Literal.spansLines · tail)

/-- Whether, up to the parenthesis that closes the outermost of `depth` open
ones, there is a string or regex with a line feed. -/
def argumentsAcrossLines (depth : Nat) (prev : Option UInt8) : Bytes → Bool
  | [] => false
  | b :: tail =>
    match Literal.opened? prev b tail with
    | some literal =>
      opensAcrossLines prev b tail ||
        argumentsAcrossLines depth (literal.lastCode prev) (tail.drop literal.more)
    | none =>
      if b = openParen then argumentsAcrossLines (depth + 1) (some b) tail
      else if b = closeParen then
        depth != 1 && argumentsAcrossLines (depth - 1) (some b) tail
      else argumentsAcrossLines depth (lastCodeAfter b prev) tail
termination_by rest => rest.length
decreasing_by all_goals simp only [List.length_cons, List.length_drop]; omega

/-! ## Texts without escaped line feeds -/

/-- A backslash stands right before a line feed. -/
def EscapesLineFeed (bytes : Bytes) : Prop :=
  [backslash, newline] <:+: bytes

instance (bytes : Bytes) : Decidable (EscapesLineFeed bytes) :=
  inferInstanceAs (Decidable ([backslash, newline] <:+: bytes))

theorem EscapesLineFeed.of_suffix {rest bytes : Bytes} (hsuffix : rest <:+ bytes)
    (hescapes : EscapesLineFeed rest) : EscapesLineFeed bytes :=
  hescapes.trans hsuffix.isInfix

theorem EscapesLineFeed.later {b : UInt8} {rest : Bytes}
    (hescapes : EscapesLineFeed rest) : EscapesLineFeed (b :: rest) :=
  hescapes.of_suffix (List.suffix_cons b rest)

theorem head?_ne_newline_of_backslash {rest : Bytes}
    (hescapes : ¬ EscapesLineFeed (backslash :: rest)) : rest.head? ≠ some newline := by
  intro hhead
  obtain ⟨rest, rfl⟩ := List.head?_eq_some_iff.mp hhead
  exact hescapes ⟨[], rest, rfl⟩

/-- The count of a scanner that has read `read` bytes before `rest`: no line feed
is among the bytes that it reads from there. -/
def StaysOnLine (rest : Bytes) (read total : Nat) : Prop :=
  ∃ count, total = read + count ∧ newline ∉ rest.take count

theorem StaysOnLine.later {b : UInt8} {rest : Bytes} {read total : Nat}
    (hb : b ≠ newline) (hstays : StaysOnLine rest (read + 1) total) :
    StaysOnLine (b :: rest) read total := by
  obtain ⟨count, rfl, hline⟩ := hstays
  refine ⟨count + 1, by omega, ?_⟩
  rw [List.take_succ_cons, List.mem_cons, not_or]
  exact ⟨Ne.symm hb, hline⟩

theorem stringTail_staysOnLine {quote : UInt8} {escaped : Bool} {rest : Bytes}
    (hescapes : ¬ EscapesLineFeed rest)
    (hfirst : escaped = true → rest.head? ≠ some newline) (read : Nat) :
    StaysOnLine rest read (stringTail quote escaped read rest) := by
  induction rest generalizing escaped read with
  | nil => exact ⟨0, rfl, by simp⟩
  | cons b rest ih =>
      have hrest : ¬ EscapesLineFeed rest := mt EscapesLineFeed.later hescapes
      rw [stringTail]
      split_ifs with hescaped hbackslash hnewline hclosing
      · exact .later (by simpa using hfirst hescaped) (ih hrest (by simp) _)
      · subst hbackslash
        exact .later (by decide)
          (ih hrest (fun _ => head?_ne_newline_of_backslash hescapes) _)
      · exact ⟨0, rfl, by simp⟩
      · exact ⟨1, rfl, by simpa using Ne.symm hnewline⟩
      · exact .later hnewline (ih hrest (by simp) _)

theorem regexTail?_staysOnLine {inClass escaped : Bool} {read total : Nat} {rest : Bytes}
    (hescapes : ¬ EscapesLineFeed rest)
    (hfirst : escaped = true → rest.head? ≠ some newline)
    (htail : regexTail? inClass escaped read rest = some total) :
    StaysOnLine rest read total := by
  induction rest generalizing inClass escaped read with
  | nil => simp [regexTail?] at htail
  | cons b rest ih =>
      have hrest : ¬ EscapesLineFeed rest := mt EscapesLineFeed.later hescapes
      rw [regexTail?] at htail
      split_ifs at htail with hescaped hbackslash hline hclosing
      · exact .later (by simpa using hfirst hescaped) (ih hrest (by simp) htail)
      · subst hbackslash
        exact .later (by decide)
          (ih hrest (fun _ => head?_ne_newline_of_backslash hescapes) htail)
      · -- the closing slash, and the flags behind it
        rw [not_or] at hline
        refine .later hline.1 ⟨runLength isWord rest, (Option.some.inj htail).symm, ?_⟩
        rw [take_runLength]
        intro hmem
        exact absurd (List.mem_takeWhile_imp hmem) (by decide)
      · rw [not_or] at hline
        exact .later hline.1 (ih hrest (by simp) htail)

theorem Literal.spansLines_of_plain? {prev : Option UInt8} {b : UInt8} {tail : Bytes}
    {literal : Literal} (hescapes : ¬ EscapesLineFeed tail)
    (hopened : Literal.plain? prev b tail = some literal) :
    literal.spansLines tail = false := by
  have hstays : ∀ {kind total}, StaysOnLine tail 0 total →
      Literal.spansLines ⟨kind, total⟩ tail = false := by
    rintro kind total ⟨count, rfl, hline⟩
    simp [Literal.spansLines, hline]
  rw [Literal.plain?] at hopened
  split_ifs at hopened with hquote hslash
  · obtain rfl := Option.some.inj hopened
    exact hstays (stringTail_staysOnLine hescapes (by simp) 0)
  · cases tail with
    | nil => simp [Literal.bySlash?] at hopened
    | cons c rest =>
        rw [Literal.bySlash?] at hopened
        split_ifs at hopened with hline hblock hregex
        · obtain rfl := Option.some.inj hopened
          rfl
        · obtain rfl := Option.some.inj hopened
          rfl
        · obtain ⟨total, htail, rfl⟩ := Option.map_eq_some_iff.mp hopened
          exact hstays (regexTail?_staysOnLine hescapes (by simp) htail)

theorem templateSpansLines_of_not_escapes {mode : TemplateMode} {outer : List Nat}
    {rest : Bytes} (hescapes : ¬ EscapesLineFeed rest) :
    templateSpansLines mode outer rest = false := by
  fun_induction templateSpansLines mode outer rest with
  | case1 => rfl
  | case4 => rfl
  | case6 outer b tail _ _ _ ih =>
      exact ih (mt (EscapesLineFeed.of_suffix
        ((List.drop_suffix 1 tail).trans (List.suffix_cons b tail))) hescapes)
  | case9 outer b tail braces prev _ literal hopened ih =>
      have htail : ¬ EscapesLineFeed tail := mt EscapesLineFeed.later hescapes
      rw [Bool.or_eq_false_iff]
      exact ⟨Literal.spansLines_of_plain? htail hopened,
        ih (mt (EscapesLineFeed.of_suffix (List.drop_suffix _ tail)) htail)⟩
  | case2 outer b tail ih => exact ih (mt EscapesLineFeed.later hescapes)
  | case3 outer tail ih => exact ih (mt EscapesLineFeed.later hescapes)
  | case5 tail braces outer _ ih => exact ih (mt EscapesLineFeed.later hescapes)
  | case7 outer b tail _ _ _ ih => exact ih (mt EscapesLineFeed.later hescapes)
  | case8 outer tail braces prev ih => exact ih (mt EscapesLineFeed.later hescapes)
  | case10 outer b tail braces prev _ _ ih => exact ih (mt EscapesLineFeed.later hescapes)

theorem opensAcrossLines_of_not_escapes {tail : Bytes}
    (hescapes : ¬ EscapesLineFeed tail) (prev : Option UInt8) (b : UInt8) :
    opensAcrossLines prev b tail = false := by
  rw [opensAcrossLines]
  split_ifs
  · exact templateSpansLines_of_not_escapes hescapes
  · cases hopened : Literal.plain? prev b tail with
    | none => rfl
    | some literal => exact Literal.spansLines_of_plain? hescapes hopened

theorem argumentsAcrossLines_of_not_escapes {rest : Bytes}
    (hescapes : ¬ EscapesLineFeed rest) (depth : Nat) (prev : Option UInt8) :
    argumentsAcrossLines depth prev rest = false := by
  fun_induction argumentsAcrossLines depth prev rest with
  | case1 => rfl
  | case2 depth prev b tail literal _ ih =>
      have htail : ¬ EscapesLineFeed tail := mt EscapesLineFeed.later hescapes
      rw [Bool.or_eq_false_iff]
      exact ⟨opensAcrossLines_of_not_escapes htail prev b,
        ih (mt (EscapesLineFeed.of_suffix (List.drop_suffix _ tail)) htail)⟩
  | case3 depth prev tail _ ih => exact ih (mt EscapesLineFeed.later hescapes)
  | case4 depth prev tail _ _ ih =>
      rw [ih (mt EscapesLineFeed.later hescapes), Bool.and_false]
  | case5 depth prev b tail _ _ _ ih => exact ih (mt EscapesLineFeed.later hescapes)

end LogSweep
