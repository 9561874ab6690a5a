import Mathlib.Data.List.TakeWhile
import LogSweep.Proofs.LiteralExtent

/-!
# Line feeds in literals

A string or regex goes on behind a line feed only if a backslash stands right
before it.  A template may hold any line feeds; it ends with its backtick, or
with the text.
-/

namespace LogSweep

open Byte Bytes

/-- Every line feed but the first byte comes right behind a backslash. -/
def EscapesNewlines (bytes : Bytes) : Prop :=
  List.IsChain (fun before b => b = newline → before = backslash) bytes

theorem escapesNewlines_of_notMem {b : UInt8} {bytes : Bytes} (hnone : newline ∉ bytes) :
    EscapesNewlines (b :: bytes) := by
  induction bytes generalizing b with
  | nil => exact List.isChain_singleton b
  | cons next bytes ih =>
      rw [List.mem_cons, not_or] at hnone
      exact List.isChain_cons_cons.mpr
        ⟨fun hnewline => absurd hnewline.symm hnone.1, ih hnone.2⟩

/-- The count of a scanner that has read `read` bytes before `rest`, the last of
them `prev`: in what it reads of `rest` line feeds are escaped. -/
def ReadsEscaped (prev : UInt8) (rest : Bytes) (read total : Nat) : Prop :=
  ∃ count, total = read + count ∧ EscapesNewlines (prev :: rest.take count)

theorem ReadsEscaped.stop (prev : UInt8) (rest : Bytes) (read : Nat) :
    ReadsEscaped prev rest read read :=
  ⟨0, rfl, List.isChain_singleton prev⟩

theorem ReadsEscaped.later {prev b : UInt8} {rest : Bytes} {read total : Nat}
    (hescaped : b = newline → prev = backslash)
    (hreads : ReadsEscaped b rest (read + 1) total) :
    ReadsEscaped prev (b :: rest) read total := by
  obtain ⟨count, rfl, hcount⟩ := hreads
  exact ⟨count + 1, by omega, List.isChain_cons_cons.mpr ⟨hescaped, hcount⟩⟩

theorem stringTail_readsEscaped (quote : UInt8) {prev : UInt8} {escaped : Bool}
    (hprev : escaped = true → prev = backslash) (read : Nat) (rest : Bytes) :
    ReadsEscaped prev rest read (stringTail quote escaped read rest) := by
  induction rest generalizing prev escaped read with
  | nil => exact .stop prev [] read
  | cons b rest ih =>
      rw [stringTail]
      split_ifs with hescaped hbackslash hnewline hclosing
      · exact (ih (by simp) (read + 1)).later fun _ => hprev hescaped
      · exact (ih (fun _ => hbackslash) (read + 1)).later
          fun hfeed => absurd (hbackslash.symm.trans hfeed) (by decide)
      · exact .stop prev (b :: rest) read
      · exact (ReadsEscaped.stop b rest (read + 1)).later
          fun hfeed => absurd hfeed hnewline
      · exact (ih (by simp) (read + 1)).later fun hfeed => absurd hfeed hnewline

theorem regexTail?_readsEscaped {prev : UInt8} {inClass escaped : Bool}
    {read total : Nat} {rest : Bytes} (hprev : escaped = true → prev = backslash)
    (htail : regexTail? inClass escaped read rest = some total) :
    ReadsEscaped prev rest read total := by
  induction rest generalizing prev inClass escaped read with
  | nil => simp [regexTail?] at htail
  | cons b rest ih =>
      rw [regexTail?] at htail
      split_ifs at htail with hescaped hbackslash hline hclosing
      · exact (ih (by simp) htail).later fun _ => hprev hescaped
      · exact (ih (fun _ => hbackslash) htail).later
          fun hfeed => absurd (hbackslash.symm.trans hfeed) (by decide)
      · -- the closing slash, and the flags behind it
        simp only [Option.some.injEq] at htail
        have hflags : newline ∉ rest.take (runLength isWord rest) := by
          rw [take_runLength]
          intro hmem
          exact absurd (List.mem_takeWhile_imp hmem) (by decide)
        refine ReadsEscaped.later (fun hfeed => absurd (Or.inl hfeed) hline)
          ⟨runLength isWord rest, htail.symm, escapesNewlines_of_notMem hflags⟩
      · exact (ih (by simp) htail).later fun hfeed => absurd (Or.inl hfeed) hline

/-! ## Templates -/

/-- The count of the scanner for templates: it stops behind a backtick, or with
the text. -/
def ClosesOrEnds (rest : Bytes) (read total : Nat) : Prop :=
  ∃ count, total = read + count ∧
    (count = rest.length ∨ ∃ text, rest.take count = text ++ [backtick])

theorem ClosesOrEnds.later {b : UInt8} {rest : Bytes} {read total : Nat}
    (hcloses : ClosesOrEnds rest (read + 1) total) :
    ClosesOrEnds (b :: rest) read total := by
  obtain ⟨count, rfl, hcount⟩ := hcloses
  refine ⟨count + 1, by omega, ?_⟩
  rcases hcount with rfl | ⟨text, htext⟩
  · exact Or.inl rfl
  · exact Or.inr ⟨b :: text, by rw [List.take_succ_cons, htext, List.cons_append]⟩

theorem templateTail_closesOrEnds (mode : TemplateMode) (outer : List Nat)
    (read : Nat) (rest : Bytes) :
    ClosesOrEnds rest read (templateTail mode outer read rest) := by
  apply templateTail_stops
  · exact fun read => ⟨0, rfl, Or.inl rfl⟩
  · exact fun tail read => ⟨1, rfl, Or.inr ⟨[], rfl⟩⟩
  · exact ClosesOrEnds.later

/-! ## Literals -/

/-- The kind of the literal that a byte opens, if it is a value. -/
def Literal.Kind.ofFirst (b : UInt8) : Literal.Kind :=
  if b = backtick then .template else if b = slash then .regex else .string

section

variable {prev : Option UInt8} {b : UInt8} {tail : Bytes} {literal : Literal}

/-- A literal or comment is opened by a backtick, by a quote, or by a slash. -/
theorem Literal.opened?_cases (hopened : Literal.opened? prev b tail = some literal) :
    (b = backtick ∧ literal = ⟨.template, templateTail .text [] 0 tail⟩) ∨
      ((b = singleQuote ∨ b = doubleQuote) ∧
        literal = ⟨.string, stringTail b false 0 tail⟩) ∨
      (b = slash ∧ Literal.bySlash? prev tail = some literal) := by
  rw [Literal.opened?, Literal.plain?] at hopened
  split_ifs at hopened with hbacktick hquote hslash
  · exact Or.inl ⟨hbacktick, (Option.some.inj hopened).symm⟩
  · exact Or.inr (Or.inl ⟨hquote, (Option.some.inj hopened).symm⟩)
  · exact Or.inr (Or.inr ⟨hslash, hopened⟩)

theorem Literal.bySlash?_eq_regex (hopened : Literal.bySlash? prev tail = some literal)
    (hvalue : literal.kind.isValue = true) :
    literal.kind = .regex ∧ regexTail? false false 0 tail = some literal.more := by
  cases tail with
  | nil => simp [Literal.bySlash?] at hopened
  | cons next rest =>
      rw [Literal.bySlash?] at hopened
      split_ifs at hopened
      · obtain rfl := Option.some.inj hopened
        simp [Kind.isValue] at hvalue
      · obtain rfl := Option.some.inj hopened
        simp [Kind.isValue] at hvalue
      · obtain ⟨total, htail, rfl⟩ := Option.map_eq_some_iff.mp hopened
        exact ⟨rfl, htail⟩

theorem Literal.kind_eq_ofFirst (hopened : Literal.opened? prev b tail = some literal)
    (hvalue : literal.kind.isValue = true) : literal.kind = .ofFirst b := by
  rcases opened?_cases hopened with ⟨rfl, rfl⟩ | ⟨hb, rfl⟩ | ⟨rfl, hslash⟩
  · rfl
  · rcases hb with rfl | rfl <;> rfl
  · rw [(bySlash?_eq_regex hslash hvalue).1]
    rfl

/-- A string or regex escapes its line feeds. -/
theorem Literal.escapesNewlines (hopened : Literal.opened? prev b tail = some literal)
    (hvalue : literal.kind.isValue = true) (hb : b ≠ backtick) :
    EscapesNewlines (b :: tail.take literal.more) := by
  rcases opened?_cases hopened with ⟨rfl, -⟩ | ⟨hquote, rfl⟩ | ⟨rfl, hslash⟩
  · exact absurd rfl hb
  · obtain ⟨count, hcount, hescaped⟩ :=
      stringTail_readsEscaped b (show false = true → b = backslash by simp) 0 tail
    simpa [hcount] using hescaped
  · obtain ⟨count, hcount, hescaped⟩ := regexTail?_readsEscaped
      (show false = true → slash = backslash by simp) (bySlash?_eq_regex hslash hvalue).2
    simpa [hcount] using hescaped

/-- A template ends with its backtick, or with the text. -/
theorem Literal.template_closesOrEnds
    (hopened : Literal.opened? prev backtick tail = some literal) :
    literal.more = tail.length ∨ ∃ text, tail.take literal.more = text ++ [backtick] := by
  obtain rfl : ⟨.template, templateTail .text [] 0 tail⟩ = literal := by
    simpa [Literal.opened?] using hopened
  obtain ⟨count, hcount, hcloses⟩ := templateTail_closesOrEnds .text [] 0 tail
  simpa [hcount] using hcloses

end

end LogSweep
