import LogSweep.Proofs.CharacterBoundary
import LogSweep.Code

/-!
# Extent of literals and comments

Every scanner counts bytes that are there, and it stops beside an ASCII byte or
with the text: after a closing quote, backtick or `*/`, before a line feed, or
after the flags of a regex.  An escape skips a single byte, which may be the
first of a longer character; the rest of that character then counts as plain
content, so the closing byte is found all the same.
-/

namespace LogSweep

open Byte Bytes

theorem isWord_false_ascii (b : UInt8) (hb : isWord b = false) : b < 0x80 := by
  simp only [isWord, Bool.or_eq_false_iff, decide_eq_false_iff_not] at hb
  exact UInt8.not_le.mp hb.2

/-- The count of a scanner that has read `read` bytes before `rest`: it goes on
into `rest` and stops at a clean cut. -/
def StopsWithin (rest : Bytes) (read total : Nat) : Prop :=
  ∃ count, total = read + count ∧ AsciiCut rest count

theorem StopsWithin.later {b : UInt8} {rest : Bytes} {read total : Nat}
    (hstops : StopsWithin rest (read + 1) total) :
    StopsWithin (b :: rest) read total := by
  obtain ⟨count, rfl, hcut⟩ := hstops
  exact ⟨count + 1, by omega, .later hcut⟩

theorem stopsWithin_nil (read : Nat) : StopsWithin [] read read :=
  ⟨0, rfl, .atEnd⟩

theorem stopsWithin_before {b : UInt8} (hb : b < 0x80) (rest : Bytes)
    (read : Nat) : StopsWithin (b :: rest) read read :=
  ⟨0, rfl, .before hb⟩

theorem stopsWithin_after {b : UInt8} (hb : b < 0x80) (rest : Bytes)
    (read : Nat) : StopsWithin (b :: rest) read (read + 1) :=
  ⟨1, rfl, .after hb⟩

/-! ## One scanner after the other -/

theorem stringTail_stopsWithin {quote : UInt8} (hquote : quote < 0x80)
    (escaped : Bool) (read : Nat) (rest : Bytes) :
    StopsWithin rest read (stringTail quote escaped read rest) := by
  induction rest generalizing escaped read with
  | nil =>
      exact stopsWithin_nil read
  | cons b rest ih =>
      rw [stringTail]
      split_ifs with hescaped hbackslash hnewline hclosing
      · exact (ih false (read + 1)).later
      · exact (ih true (read + 1)).later
      · exact stopsWithin_before (hnewline ▸ by decide) rest read
      · exact stopsWithin_after (hclosing ▸ hquote) rest read
      · exact (ih false (read + 1)).later

theorem regexTail?_stopsWithin {inClass escaped : Bool} {read total : Nat}
    {rest : Bytes}
    (htail : regexTail? inClass escaped read rest = some total) :
    StopsWithin rest read total := by
  induction rest generalizing inClass escaped read with
  | nil =>
      simp [regexTail?] at htail
  | cons b rest ih =>
      rw [regexTail?] at htail
      split_ifs at htail with hescaped hbackslash hline hclosing
      · exact (ih htail).later
      · exact (ih htail).later
      · -- the closing slash, and the flags behind it
        simp only [Option.some.injEq] at htail
        refine ⟨runLength isWord rest + 1, by omega, .later ?_⟩
        exact asciiCut_runLength isWord_false_ascii rest
      · exact (ih htail).later

theorem blockCommentTail_stopsWithin (read : Nat) (rest : Bytes) :
    StopsWithin rest read (blockCommentTail read rest) := by
  induction rest generalizing read with
  | nil =>
      exact stopsWithin_nil read
  | cons b rest ih =>
      rw [blockCommentTail]
      split_ifs with hclosing
      · cases rest with
        | nil =>
            simp at hclosing
        | cons next rest =>
            have hslash : next = slash := by simpa using hclosing.2
            refine ⟨2, rfl, .later (.after ?_)⟩
            exact hslash ▸ by decide
      · exact (ih (read + 1)).later

theorem Literal.bySlash?_asciiCut {prev : Option UInt8} {tail : Bytes}
    {literal : Literal} (hopened : Literal.bySlash? prev tail = some literal) :
    AsciiCut tail literal.more := by
  cases tail with
  | nil =>
      simp [Literal.bySlash?] at hopened
  | cons b rest =>
      rw [Literal.bySlash?] at hopened
      split_ifs at hopened with hline hblock hregex
      · simp only [Option.some.injEq] at hopened
        subst literal
        refine asciiCut_runLength (fun c hc => ?_) (b :: rest)
        have hnewline : c = newline := by simpa using hc
        exact hnewline ▸ by decide
      · simp only [Option.some.injEq] at hopened
        subst literal
        obtain ⟨count, htotal, hcut⟩ := blockCommentTail_stopsWithin 1 rest
        rw [htotal, Nat.add_comm]
        exact .later hcut
      · obtain ⟨total, htail, rfl⟩ := Option.map_eq_some_iff.mp hopened
        obtain ⟨count, rfl, hcut⟩ := regexTail?_stopsWithin htail
        simpa using hcut

theorem Literal.plain?_asciiCut {prev : Option UInt8} {b : UInt8}
    {tail : Bytes} {literal : Literal}
    (hopened : Literal.plain? prev b tail = some literal) :
    AsciiCut tail literal.more := by
  rw [Literal.plain?] at hopened
  split_ifs at hopened with hquote hslash
  · simp only [Option.some.injEq] at hopened
    subst literal
    have hb : b < 0x80 := by
      rcases hquote with rfl | rfl <;> decide
    obtain ⟨count, htotal, hcut⟩ := stringTail_stopsWithin hb false 0 tail
    rw [htotal, Nat.zero_add]
    exact hcut
  · exact Literal.bySlash?_asciiCut hopened

theorem templateTail_text (outer : List Nat) (read : Nat) (b : UInt8) (tail : Bytes) :
    templateTail .text outer read (b :: tail) =
      if b = backslash then templateTail .escape outer (read + 1) tail
      else if b = backtick then
        match outer with
        | [] => read + 1
        | braces :: outer => templateTail (.resume braces) outer (read + 1) tail
      else if b = dollar ∧ tail.head? = some openBrace then
        templateTail (.code 0 (some openBrace)) outer (read + 2) (tail.drop 1)
      else templateTail .text outer (read + 1) tail :=
  templateTail.eq_def .text outer read (b :: tail)

/-- What holds of the counts of the scan for templates, whatever level it is at: of
none at the end of the text, of one at a closing backtick, and of each count that
it holds of behind the first byte. -/
theorem templateTail_stops {Stops : Bytes → Nat → Nat → Prop}
    (hend : ∀ read, Stops [] read read)
    (hclosing : ∀ tail read, Stops (backtick :: tail) read (read + 1))
    (hlater : ∀ {b tail read total}, Stops tail (read + 1) total → Stops (b :: tail) read total)
    (mode : TemplateMode) (outer : List Nat) (read : Nat) (rest : Bytes) :
    Stops rest read (templateTail mode outer read rest) := by
  have hbehind : ∀ {skipped rest read total}, skipped ≤ rest.length →
      Stops (rest.drop skipped) (read + skipped) total → Stops rest read total := by
    intro skipped
    induction skipped with
    | zero =>
        intro rest read total _ hstops
        exact hstops
    | succ skipped ih =>
        intro rest read total hskipped hstops
        cases rest with
        | nil => simp at hskipped
        | cons b rest =>
            rw [List.drop_succ_cons, ← Nat.add_assoc, Nat.add_right_comm] at hstops
            exact hlater (ih (Nat.le_of_succ_le_succ hskipped) hstops)
  fun_induction templateTail mode outer read rest with
  | case1 => exact hend _
  -- after a backslash, and at one
  | case2 outer read b tail ih => exact hlater ih
  | case3 outer read tail ih => exact hlater ih
  -- a backtick closes the outermost template, or one inside a substitution
  | case4 read tail => exact hclosing tail read
  | case5 read tail braces outer _ ih => exact hlater ih
  -- `${` opens a substitution
  | case6 outer read b tail _ _ hopens ih =>
      have hnonempty : 1 ≤ tail.length := by
        cases tail with
        | nil => simp at hopens
        | cons next tail => simp
      exact hlater (hbehind hnonempty ih)
  | case7 outer read b tail _ _ _ ih => exact hlater ih
  -- inside a substitution: a template, another literal, a byte of code
  | case8 outer read tail braces prev ih => exact hlater ih
  | case9 outer read b tail braces prev _ literal hopened ih =>
      have hle := (Literal.plain?_asciiCut hopened).le_length
      have hread : read + literal.length = read + 1 + literal.more := by
        simp only [Literal.length]
        omega
      rw [hread] at ih ⊢
      exact hlater (hbehind hle ih)
  | case10 outer read b tail braces prev _ _ ih => exact hlater ih

theorem templateTail_stopsWithin (mode : TemplateMode) (outer : List Nat)
    (read : Nat) (rest : Bytes) :
    StopsWithin rest read (templateTail mode outer read rest) :=
  templateTail_stops stopsWithin_nil (stopsWithin_after (by decide)) StopsWithin.later
    mode outer read rest

theorem Literal.opened?_asciiCut {prev : Option UInt8} {b : UInt8}
    {tail : Bytes} {literal : Literal}
    (hopened : Literal.opened? prev b tail = some literal) :
    AsciiCut tail literal.more := by
  rw [Literal.opened?] at hopened
  split_ifs at hopened with hbacktick
  · simp only [Option.some.injEq] at hopened
    subst literal
    obtain ⟨count, htotal, hcut⟩ := templateTail_stopsWithin .text [] 0 tail
    rw [htotal, Nat.zero_add]
    exact hcut
  · exact Literal.plain?_asciiCut hopened

/-! ## From an offset -/

theorem Literal.openedAt?_of_drop {src : Bytes} {start : Nat} {b : UInt8} {tail : Bytes}
    (hrest : src.drop start = b :: tail) (prev : Option UInt8) :
    Literal.openedAt? src start prev = Literal.opened? prev b tail := by
  unfold Literal.openedAt?
  rw [hrest]

theorem Literal.exists_of_openedAt? {src : Bytes} {start : Nat} {prev : Option UInt8}
    {literal : Literal} (hopened : Literal.openedAt? src start prev = some literal) :
    ∃ b tail, src.drop start = b :: tail ∧ Literal.opened? prev b tail = some literal := by
  cases hrest : src.drop start with
  | nil =>
      unfold Literal.openedAt? at hopened
      rw [hrest] at hopened
      cases hopened
  | cons b tail =>
      rw [Literal.openedAt?_of_drop hrest] at hopened
      exact ⟨b, tail, rfl, hopened⟩

theorem Literal.openedAt?_asciiCut {src : Bytes} {start : Nat} {prev : Option UInt8}
    {literal : Literal} (hopened : Literal.openedAt? src start prev = some literal) :
    AsciiCut src (start + literal.length) := by
  rcases Literal.exists_of_openedAt? hopened with ⟨b, tail, hrest, hopened⟩
  have hlt : start < src.length := by
    rw [← not_le, ← List.drop_eq_nil_iff, hrest]
    exact List.cons_ne_nil b tail
  have hcut : AsciiCut (src.drop start) literal.length :=
    hrest ▸ .later (Literal.opened?_asciiCut hopened)
  exact AsciiCut.of_drop hlt.le hcut

end LogSweep
