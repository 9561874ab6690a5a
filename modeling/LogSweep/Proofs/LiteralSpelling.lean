import Mathlib.Algebra.Group.Nat.Even
import Mathlib.Data.List.DropRight
import LogSweep.Proofs.LiteralNewlines
import LogSweep.Proofs.ParenthesisNesting
import LogSweep.Proofs.TextLines

/-!
# How a regex is spelled

A regex ends with the first slash that is neither escaped nor in a class, and
with the word behind it.  A line break in front of that slash means that there
is no regex, unless the line break is escaped.  So a regex stays on its line
exactly if that line holds the slash which ends it; where it holds none, only a
backslash before the line break lets the regex go on.
-/

namespace LogSweep

open Byte Bytes

/-! ## Escaped bytes -/

/-- The byte after these bytes of a literal is escaped: an odd number of
backslashes ends them. -/
def EndsInEscape (before : Bytes) : Prop :=
  Odd (before.rtakeWhile (· == backslash)).length

instance (before : Bytes) : Decidable (EndsInEscape before) :=
  inferInstanceAs (Decidable (Odd _))

theorem not_endsInEscape_nil : ¬ EndsInEscape [] := by
  decide

theorem endsInEscape_concat_iff {b : UInt8} {before : Bytes} :
    EndsInEscape (before ++ [b]) ↔ b = backslash ∧ ¬ EndsInEscape before := by
  unfold EndsInEscape
  by_cases hb : b = backslash
  · rw [List.rtakeWhile_concat_pos (· == backslash) before b (beq_iff_eq.mpr hb),
      List.length_append, List.length_singleton, Nat.odd_add_one]
    exact (and_iff_right hb).symm
  · rw [List.rtakeWhile_concat_neg (· == backslash) before b (by rwa [beq_iff_eq])]
    exact ⟨fun hodd => absurd hodd (by decide), fun hboth => absurd hboth.1 hb⟩

/-! ## Classes -/

/-- The byte after these bytes of a regex is in a class: they hold a `[` that is
not escaped, and behind it no such `]`. -/
def EndsInClass (before : Bytes) : Prop :=
  ∃ front inside, before = front ++ openBracket :: inside ∧ ¬ EndsInEscape front ∧
    ∀ inner rest, inside = inner ++ closeBracket :: rest →
      EndsInEscape (front ++ openBracket :: inner)

theorem not_endsInClass_nil : ¬ EndsInClass [] := by
  rintro ⟨front, inside, hsplit, -⟩
  simp at hsplit

theorem endsInClass_concat_iff {b : UInt8} {before : Bytes} :
    EndsInClass (before ++ [b]) ↔
      (b = openBracket ∧ ¬ EndsInEscape before) ∨
        (EndsInClass before ∧ (b = closeBracket → EndsInEscape before)) := by
  constructor
  · rintro ⟨front, inside, hsplit, hfront, hinside⟩
    rcases List.eq_nil_or_concat inside with rfl | ⟨inside, last, rfl⟩
    · have hlast := List.append_inj' hsplit (by simp)
      simp only [List.cons.injEq, and_true] at hlast
      exact Or.inl ⟨hlast.2, hlast.1 ▸ hfront⟩
    · rw [List.concat_eq_append] at hsplit hinside
      rw [← List.cons_append, ← List.append_assoc] at hsplit
      rcases List.append_inj' hsplit (by simp) with ⟨rfl, hlast⟩
      obtain rfl : b = last := by simpa using hlast
      refine Or.inr ⟨⟨front, inside, rfl, hfront, ?_⟩, ?_⟩
      · intro inner rest hinner
        exact hinside inner (rest ++ [b]) (by rw [hinner]; simp)
      · rintro rfl
        exact hinside inside [] rfl
  · rintro (⟨rfl, hescape⟩ | ⟨⟨front, inside, rfl, hfront, hinside⟩, hclose⟩)
    · refine ⟨before, [], rfl, hescape, ?_⟩
      intro inner rest hinner
      simp at hinner
    · refine ⟨front, inside ++ [b], by simp, hfront, ?_⟩
      intro inner rest hinner
      rcases List.eq_nil_or_concat rest with rfl | ⟨rest, last, rfl⟩
      · have hlast := List.append_inj' hinner (by simp)
        simp only [List.cons.injEq, and_true] at hlast
        rw [← hlast.1]
        exact hclose hlast.2
      · rw [List.concat_eq_append, ← List.cons_append, ← List.append_assoc] at hinner
        exact hinside inner rest (List.append_inj' hinner (by simp)).1

theorem endsInClass_concat_of_escape {before : Bytes} (hescape : EndsInEscape before)
    (b : UInt8) : EndsInClass (before ++ [b]) ↔ EndsInClass before := by
  rw [endsInClass_concat_iff]
  simp [hescape]

theorem endsInClass_concat_backslash {before : Bytes} :
    EndsInClass (before ++ [backslash]) ↔ EndsInClass before := by
  have hopen : backslash ≠ openBracket := by decide
  have hclose : backslash ≠ closeBracket := by decide
  rw [endsInClass_concat_iff]
  simp [hopen, hclose]

/-! ## Regexes -/

/-- A slash behind these bytes of a regex ends its body. -/
def ClosesRegex (before : Bytes) : Prop :=
  ¬ EndsInEscape before ∧ ¬ EndsInClass before

/-- Behind the bytes `before` of a regex, `more` is the rest of its body, to which
a slash comes next. -/
structure FinishesRegex (before more : Bytes) : Prop where
  closes : ClosesRegex (before ++ more)
  first : ∀ inner rest, more = inner ++ slash :: rest → ¬ ClosesRegex (before ++ inner)
  escaped :
    ∀ inner b rest, more = inner ++ b :: rest → isLineBreak b = true →
      EndsInEscape (before ++ inner)

/-- The body that `before` begins ends in the first of these bytes, and `count` of
them belong to the regex, the word behind it included. -/
def RegexEndsIn (before rest : Bytes) (count : Nat) : Prop :=
  ∃ more after, rest = more ++ slash :: after ∧ FinishesRegex before more ∧
    count = more.length + 1 + runLength isWord after

theorem finishesRegex_nil {before : Bytes} : FinishesRegex before [] ↔ ClosesRegex before := by
  constructor
  · intro hfinishes
    simpa using hfinishes.closes
  · intro hcloses
    constructor
    · simpa using hcloses
    · intro inner rest hsplit
      simp at hsplit
    · intro inner b rest hsplit
      simp at hsplit

theorem finishesRegex_cons {before more : Bytes} {b : UInt8} :
    FinishesRegex before (b :: more) ↔
      (b = slash → ¬ ClosesRegex before) ∧ (isLineBreak b = true → EndsInEscape before) ∧
        FinishesRegex (before ++ [b]) more := by
  constructor
  · intro hfinishes
    refine ⟨?_, ?_, ?_, ?_, ?_⟩
    · rintro rfl
      simpa using hfinishes.first [] more rfl
    · intro hbreak
      simpa using hfinishes.escaped [] b more rfl hbreak
    · simpa using hfinishes.closes
    · intro inner rest hsplit
      simpa using hfinishes.first (b :: inner) rest (by rw [hsplit, List.cons_append])
    · intro inner c rest hsplit hbreak
      simpa using hfinishes.escaped (b :: inner) c rest (by rw [hsplit, List.cons_append]) hbreak
  · rintro ⟨hslash, hbreak, hlater⟩
    constructor
    · simpa using hlater.closes
    · intro inner rest hsplit
      cases inner with
      | nil =>
          rw [List.append_nil]
          exact hslash (List.cons.inj hsplit).1
      | cons first inner =>
          rcases List.cons.inj hsplit with ⟨rfl, hmore⟩
          simpa using hlater.first inner rest hmore
    · intro inner c rest hsplit hc
      cases inner with
      | nil =>
          rw [List.append_nil]
          exact hbreak ((List.cons.inj hsplit).1 ▸ hc)
      | cons first inner =>
          rcases List.cons.inj hsplit with ⟨rfl, hmore⟩
          simpa using hlater.escaped inner c rest hmore hc

theorem not_regexEndsIn_nil (before : Bytes) (count : Nat) : ¬ RegexEndsIn before [] count := by
  rintro ⟨more, after, hsplit, -⟩
  simp at hsplit

theorem regexEndsIn_cons {before tail : Bytes} {b : UInt8} {count : Nat} :
    RegexEndsIn before (b :: tail) count ↔
      (b = slash ∧ ClosesRegex before ∧ count = 1 + runLength isWord tail) ∨
        ((b = slash → ¬ ClosesRegex before) ∧ (isLineBreak b = true → EndsInEscape before) ∧
          ∃ later, count = later + 1 ∧ RegexEndsIn (before ++ [b]) tail later) := by
  constructor
  · rintro ⟨more, after, hsplit, hfinishes, hcount⟩
    cases more with
    | nil =>
        rcases List.cons.inj hsplit with ⟨rfl, rfl⟩
        refine Or.inl ⟨rfl, finishesRegex_nil.mp hfinishes, ?_⟩
        rw [hcount, List.length_nil, Nat.zero_add]
    | cons first more =>
        rcases List.cons.inj hsplit with ⟨rfl, htail⟩
        rcases finishesRegex_cons.mp hfinishes with ⟨hslash, hbreak, hlater⟩
        refine Or.inr ⟨hslash, hbreak, _, ?_, more, after, htail, hlater, rfl⟩
        rw [hcount, List.length_cons]
        omega
  · rintro (⟨rfl, hcloses, hcount⟩ | ⟨hslash, hbreak, later, hcount, more, after, htail, hlater, rfl⟩)
    · refine ⟨[], tail, rfl, finishesRegex_nil.mpr hcloses, ?_⟩
      rw [hcount, List.length_nil, Nat.zero_add]
    · refine ⟨b :: more, after, by rw [htail, List.cons_append],
        finishesRegex_cons.mpr ⟨hslash, hbreak, hlater⟩, ?_⟩
      rw [hcount, List.length_cons]
      omega

/-- Behind a byte that ends neither the body nor the line, the rest is read on. -/
theorem exists_regexEndsIn_cons {before rest : Bytes} {b : UInt8} {read total : Nat}
    (hslash : b = slash → ¬ ClosesRegex before)
    (hbreak : isLineBreak b = true → EndsInEscape before) :
    (∃ count, total = read + count ∧ RegexEndsIn before (b :: rest) count) ↔
      ∃ count, total = read + 1 + count ∧ RegexEndsIn (before ++ [b]) rest count := by
  constructor
  · rintro ⟨count, rfl, hends⟩
    rcases regexEndsIn_cons.mp hends with ⟨hb, hcloses, -⟩ | ⟨-, -, later, rfl, hlater⟩
    · exact absurd hcloses (hslash hb)
    · exact ⟨later, by omega, hlater⟩
  · rintro ⟨later, rfl, hlater⟩
    refine ⟨later + 1, by omega, regexEndsIn_cons.mpr ?_⟩
    exact Or.inr ⟨hslash, hbreak, later, rfl, hlater⟩

/-- The scanner of a regex knows whether the next byte is escaped and whether it is
in a class, and it stops where the body ends. -/
theorem regexTail?_eq_some_iff {inClass escaped : Bool} {before rest : Bytes} {read total : Nat}
    (hclass : inClass = true ↔ EndsInClass before)
    (hescaped : escaped = true ↔ EndsInEscape before) :
    regexTail? inClass escaped read rest = some total ↔
      ∃ count, total = read + count ∧ RegexEndsIn before rest count := by
  induction rest generalizing inClass escaped before read with
  | nil =>
      rw [regexTail?]
      constructor
      · intro hnone
        cases hnone
      · rintro ⟨count, -, hends⟩
        exact absurd hends (not_regexEndsIn_nil before count)
  | cons b rest ih =>
      have hafter : escaped ≠ true → ¬ EndsInEscape before :=
        fun hescape hafter => hescape (hescaped.mpr hafter)
      rw [regexTail?]
      split_ifs with hescape hbackslash hline hclosing
      · have hafter := hescaped.mp hescape
        rw [exists_regexEndsIn_cons (fun _ hcloses => hcloses.1 hafter) (fun _ => hafter)]
        apply ih
        · rw [hclass, endsInClass_concat_of_escape hafter]
        · rw [endsInEscape_concat_iff]
          simp [hafter]
      · subst hbackslash
        rw [exists_regexEndsIn_cons (fun hb => absurd hb (by decide))
          (fun hb => absurd hb (by decide))]
        apply ih
        · rw [hclass, endsInClass_concat_backslash]
        · rw [endsInEscape_concat_iff]
          simp [hafter hescape]
      · constructor
        · intro hnone
          cases hnone
        · rintro ⟨count, -, hends⟩
          rcases regexEndsIn_cons.mp hends with ⟨rfl, -⟩ | ⟨-, hbreak, -⟩
          · exact absurd hline (by decide)
          · exact absurd (hbreak (isLineBreak_eq_true_iff.mpr hline)) (hafter hescape)
      · have hcloses : ClosesRegex before := by
          refine ⟨hafter hescape, fun hinside => ?_⟩
          rw [hclass.mpr hinside] at hclosing
          cases hclosing.2
        rw [Option.some.injEq]
        constructor
        · intro htotal
          refine ⟨1 + runLength isWord rest, by omega, regexEndsIn_cons.mpr ?_⟩
          exact Or.inl ⟨hclosing.1, hcloses, rfl⟩
        · rintro ⟨count, rfl, hends⟩
          rcases regexEndsIn_cons.mp hends with ⟨-, -, hcount⟩ | ⟨hslash, -⟩
          · omega
          · exact absurd hcloses (hslash hclosing.1)
      · have hopen : b = slash → ¬ ClosesRegex before := by
          rintro rfl hcloses
          refine hclosing ⟨rfl, ?_⟩
          rw [Bool.eq_false_iff, ne_eq, hclass]
          exact hcloses.2
        rw [exists_regexEndsIn_cons hopen
          (fun hbreak => absurd (isLineBreak_eq_true_iff.mp hbreak) hline)]
        apply ih
        · rw [endsInClass_concat_iff, Bool.or_eq_true, beq_iff_eq, Bool.and_eq_true, hclass]
          simp [hafter hescape]
        · rw [endsInEscape_concat_iff]
          simp [hbackslash]

/-! ## The line of a regex -/

/-- The rest of the line, if these bytes stand in it. -/
def restOfLine (tail : Bytes) : Bytes :=
  tail.takeWhile fun b => !isLineBreak b

/-- The line in which these bytes stand, those behind the slash that opens a regex,
holds a slash that ends its body. -/
def ClosesOnLine (tail : Bytes) : Prop :=
  ∃ body rest, restOfLine tail = body ++ slash :: rest ∧ ClosesRegex body

theorem isLineBreak_of_mem_restOfLine {tail : Bytes} {b : UInt8} (hb : b ∈ restOfLine tail) :
    isLineBreak b = false := by
  have hnot := List.mem_takeWhile_imp hb
  rwa [Bool.not_eq_true'] at hnot

theorem exists_finishesRegex {tail : Bytes} (hcloses : ClosesOnLine tail) :
    ∃ body after, tail = body ++ slash :: after ∧ FinishesRegex [] body := by
  rcases hcloses with ⟨body, rest, hline, hbody⟩
  induction hlength : body.length using Nat.strong_induction_on generalizing body rest with
  | _ length ih =>
      by_cases hearlier : ∃ inner later, body = inner ++ slash :: later ∧ ClosesRegex inner
      · rcases hearlier with ⟨inner, later, rfl, hinner⟩
        apply ih inner.length _ inner (later ++ slash :: rest) _ hinner rfl
        · rw [← hlength, List.length_append, List.length_cons]
          omega
        · rw [hline, List.append_assoc, List.cons_append]
      · refine ⟨body, rest ++ tail.dropWhile (fun b => !isLineBreak b), ?_, hbody, ?_, ?_⟩
        · rw [← List.cons_append, ← List.append_assoc, ← hline, restOfLine,
            List.takeWhile_append_dropWhile]
        · intro inner later hsplit hinner
          exact hearlier ⟨inner, later, hsplit, hinner⟩
        · intro inner b later hsplit hbreak
          have hmem : b ∈ restOfLine tail := by
            rw [hline, hsplit]
            simp
          rw [isLineBreak_of_mem_restOfLine hmem] at hbreak
          cases hbreak

section

variable {body after : Bytes} (hfinishes : FinishesRegex [] body)

include hfinishes

/-- The line holds the slash that ends the body if the body holds no line break. -/
theorem FinishesRegex.closesOnLine_iff :
    ClosesOnLine (body ++ slash :: after) ↔ ∀ b ∈ body, isLineBreak b = false := by
  constructor
  · rintro ⟨body', rest, hline, hbody'⟩ b hb
    have hsplit := List.takeWhile_append_dropWhile
      (p := fun b => !isLineBreak b) (l := body ++ slash :: after)
    rw [← restOfLine, hline, List.append_assoc, List.cons_append] at hsplit
    have hmem : b ∈ body' := by
      rcases List.append_eq_append_iff.mp hsplit with ⟨more, hbody, hmore⟩ | ⟨more, hbody, -⟩
      · cases more with
        | nil =>
            rwa [hbody, List.append_nil] at hb
        | cons first more =>
            -- the body would have ended there
            rw [List.cons_append, List.cons.injEq] at hmore
            exact absurd hbody' (hfinishes.first body' more (by rw [hbody, hmore.1]))
      · rw [hbody]
        exact List.mem_append_left more hb
    have hmem : b ∈ restOfLine (body ++ slash :: after) := by
      rw [hline]
      exact List.mem_append_left _ hmem
    exact isLineBreak_of_mem_restOfLine hmem
  · intro hbody
    refine ⟨body, restOfLine after, ?_, hfinishes.closes⟩
    have hslash : (!isLineBreak slash) = true := by decide
    rw [restOfLine, List.takeWhile_append_of_pos (by simpa using hbody), List.takeWhile_cons,
      if_pos hslash, restOfLine]

/-- Where the body holds a line break, the first one is escaped. -/
theorem FinishesRegex.endsInEscape {b : UInt8} (hb : b ∈ body) (hbreak : isLineBreak b = true)
    (after : Bytes) : EndsInEscape (restOfLine (body ++ slash :: after)) := by
  have hsplit := List.takeWhile_append_dropWhile (p := fun b => !isLineBreak b) (l := body)
  cases hdrop : body.dropWhile fun b => !isLineBreak b with
  | nil =>
      have hnot := List.dropWhile_eq_nil_iff.mp hdrop b hb
      rw [hbreak] at hnot
      cases hnot
  | cons stop rest =>
      have hstop : (!isLineBreak stop) = false := by
        have hne : (body.dropWhile fun b => !isLineBreak b) ≠ [] := by
          rw [hdrop]
          exact List.cons_ne_nil stop rest
        simpa [hdrop] using List.head_dropWhile_not (fun b => !isLineBreak b) hne
      rw [hdrop] at hsplit
      have hline : restOfLine (body ++ slash :: after) =
          body.takeWhile fun b => !isLineBreak b := by
        rw [restOfLine]
        conv => lhs; rw [← hsplit, List.append_assoc, List.cons_append]
        exact takeWhile_append_of_stop
          (fun c hc => List.mem_takeWhile_imp (p := fun b => !isLineBreak b) hc) hstop
      rw [hline]
      exact hfinishes.escaped _ stop rest hsplit.symm (by simpa using hstop)

end

/-! ## Where a regex is recognized -/

/-- A slash at this place can open a regex: it starts no comment, and no value
stands before it. -/
structure CanOpenRegex (src : Bytes) (start : Nat) (prev : Option UInt8) : Prop where
  slash : src[start]? = some slash
  notComment : opensComment (src.drop start) = false
  noValue : admitsRegex prev = true

/-- The regex at this place has the body `body`; a slash and the bytes `after`
follow. -/
structure SpellsRegex (src : Bytes) (start : Nat) (prev : Option UInt8) (body after : Bytes) :
    Prop where
  opens : CanOpenRegex src start prev
  spelled : src.drop (start + 1) = body ++ slash :: after
  finishes : FinishesRegex [] body

section

variable {src : Bytes} {start : Nat} {prev : Option UInt8}

/-- At a slash that starts no comment there is a regex, or nothing. -/
theorem Literal.openedAt?_slash (hslash : src[start]? = some slash)
    (hcomment : opensComment (src.drop start) = false) :
    Literal.openedAt? src start prev =
      if admitsRegex prev then
        (regexTail? false false 0 (src.drop (start + 1))).map (⟨.regex, ·⟩)
      else none := by
  have hrest := drop_eq_cons_of_getElem? hslash
  rw [hrest] at hcomment
  rw [openedAt?_of_drop hrest, opened?, if_neg (by decide), plain?, if_neg (by decide),
    if_pos rfl]
  cases htail : src.drop (start + 1) with
  | nil =>
      rw [bySlash?, regexTail?]
      simp
  | cons b rest =>
      rw [htail] at hcomment
      have hb : b ≠ slash ∧ b ≠ star := by
        simpa [opensComment] using hcomment
      rw [bySlash?, if_neg hb.1, if_neg hb.2]

theorem Literal.kind_of_openedAt?_slash {literal : Literal} (hslash : src[start]? = some slash)
    (hcomment : opensComment (src.drop start) = false)
    (hopened : Literal.openedAt? src start prev = some literal) : literal.kind = .regex := by
  rw [openedAt?_slash hslash hcomment] at hopened
  split_ifs at hopened
  rcases Option.map_eq_some_iff.mp hopened with ⟨total, -, rfl⟩
  rfl

theorem Literal.canOpenRegex_of_openedAt? {more : Nat}
    (hopened : Literal.openedAt? src start prev = some ⟨.regex, more⟩) :
    CanOpenRegex src start prev := by
  rcases exists_of_openedAt? hopened with ⟨b, tail, hrest, hopened⟩
  rcases opened?_cases hopened with ⟨-, hkind⟩ | ⟨-, hkind⟩ | ⟨rfl, hslash⟩
  · cases hkind
  · cases hkind
  · have hbyte : src[start]? = some slash := by
      rw [← Nat.add_zero start, ← List.getElem?_drop, hrest]
      rfl
    cases tail with
    | nil => cases hslash
    | cons next rest =>
        rw [bySlash?] at hslash
        split_ifs at hslash with hline hblock hregex
        · cases congrArg (Option.map Literal.kind) hslash
        · cases congrArg (Option.map Literal.kind) hslash
        · refine ⟨hbyte, ?_, hregex⟩
          rw [hrest]
          simp [opensComment, hline, hblock]

/-- A regex is recognized where one can open and is spelled, and its length is that
of its body, its two slashes and the word behind them. -/
theorem Literal.openedAt?_eq_regex_iff {more : Nat} :
    Literal.openedAt? src start prev = some ⟨.regex, more⟩ ↔
      ∃ body after, SpellsRegex src start prev body after ∧
        more = body.length + 1 + runLength isWord after := by
  have htail : CanOpenRegex src start prev →
      (Literal.openedAt? src start prev = some ⟨.regex, more⟩ ↔
        RegexEndsIn [] (src.drop (start + 1)) more) := by
    intro hopens
    rw [openedAt?_slash hopens.slash hopens.notComment, if_pos hopens.noValue]
    have hends := @regexTail?_eq_some_iff false false [] (src.drop (start + 1)) 0 more
      (iff_of_false Bool.false_ne_true not_endsInClass_nil)
      (iff_of_false Bool.false_ne_true not_endsInEscape_nil)
    simpa using hends
  constructor
  · intro hopened
    have hopens := canOpenRegex_of_openedAt? hopened
    rcases (htail hopens).mp hopened with ⟨body, after, hspelled, hfinishes, hmore⟩
    exact ⟨body, after, ⟨hopens, hspelled, hfinishes⟩, hmore⟩
  · rintro ⟨body, after, ⟨hopens, hspelled, hfinishes⟩, hmore⟩
    exact (htail hopens).mpr ⟨body, after, hspelled, hfinishes, hmore⟩

end

/-- What is recognized at this place as a regex holds no line break, and where the
line holds no slash that ends the body, no regex is recognized. -/
structure ReadsRegexInLine (src : Bytes) (start : Nat) (prev : Option UInt8) : Prop where
  inLine :
    ∀ more, Literal.openedAt? src start prev = some ⟨.regex, more⟩ →
      ∀ b ∈ (src.drop start).take (more + 1), isLineBreak b = false
  unclosed :
    src[start]? = some slash → opensComment (src.drop start) = false →
      ¬ ClosesOnLine (src.drop (start + 1)) → Literal.openedAt? src start prev = none

section

variable {src : Bytes} {start : Nat} {prev : Option UInt8} {body after : Bytes}
  (hspells : SpellsRegex src start prev body after)

include hspells

theorem SpellsRegex.forall_isLineBreak_iff :
    (∀ b ∈ (src.drop start).take (body.length + 1 + runLength isWord after + 1),
        isLineBreak b = false) ↔
      ∀ b ∈ body, isLineBreak b = false := by
  have htake : (src.drop start).take (body.length + 1 + runLength isWord after + 1) =
      slash :: (body ++ slash :: after.takeWhile isWord) := by
    rw [drop_eq_cons_of_getElem? hspells.opens.slash, hspells.spelled, List.take_succ_cons,
      Nat.add_assoc, List.take_length_add_append, Nat.add_comm 1, List.take_succ_cons,
      take_runLength]
  rw [htake]
  constructor
  · intro hline b hb
    exact hline b (List.mem_cons_of_mem _ (List.mem_append_left _ hb))
  · intro hbody b hb
    rcases List.mem_cons.mp hb with rfl | hb
    · decide
    · rcases List.mem_append.mp hb with hb | hb
      · exact hbody b hb
      · rcases List.mem_cons.mp hb with rfl | hb
        · decide
        · exact isLineBreak_eq_false_of_isWord (List.mem_takeWhile_imp hb)

theorem SpellsRegex.closesOnLine_iff :
    ClosesOnLine (src.drop (start + 1)) ↔ ∀ b ∈ body, isLineBreak b = false := by
  rw [hspells.spelled]
  exact hspells.finishes.closesOnLine_iff

end

/-- The regex at a place ends with the first slash behind it that is neither
escaped nor in a class and with the word behind that slash, unless a line break
that is not escaped comes first.  Thus it stays on its line if and only if its
body holds no line break; it does if that line holds such a slash, and likewise
there is none if that line does not and no backslash escapes its end. -/
theorem openedAt?_spells_regex (src : Bytes) (start : Nat) (prev : Option UInt8) :
    (∀ more, Literal.openedAt? src start prev = some ⟨.regex, more⟩ ↔
      ∃ body after, SpellsRegex src start prev body after ∧
        more = body.length + 1 + runLength isWord after) ∧
    (ReadsRegexInLine src start prev ↔
      ¬ ∃ body after, SpellsRegex src start prev body after ∧
        ∃ b ∈ body, isLineBreak b = true) ∧
    (ClosesOnLine (src.drop (start + 1)) ∨ ¬ EndsInEscape (restOfLine (src.drop (start + 1))) →
      ReadsRegexInLine src start prev) ∧
    (CanOpenRegex src start prev → ClosesOnLine (src.drop (start + 1)) →
      ∃ more, Literal.openedAt? src start prev = some ⟨.regex, more⟩) := by
  have hexactly : ReadsRegexInLine src start prev ↔
      ¬ ∃ body after, SpellsRegex src start prev body after ∧
        ∃ b ∈ body, isLineBreak b = true := by
    constructor
    · rintro hreads ⟨body, after, hspells, b, hb, hbreak⟩
      have hopened := Literal.openedAt?_eq_regex_iff.mpr ⟨body, after, hspells, rfl⟩
      have hbody := hspells.forall_isLineBreak_iff.mp (hreads.inLine _ hopened)
      rw [hbody b hb] at hbreak
      cases hbreak
    · intro hnone
      have hbody : ∀ {body after}, SpellsRegex src start prev body after →
          ∀ b ∈ body, isLineBreak b = false := by
        intro body after hspells b hb
        rw [Bool.eq_false_iff]
        exact fun hbreak => hnone ⟨body, after, hspells, b, hb, hbreak⟩
      constructor
      · intro more hopened
        rcases Literal.openedAt?_eq_regex_iff.mp hopened with ⟨body, after, hspells, rfl⟩
        exact hspells.forall_isLineBreak_iff.mpr (hbody hspells)
      · intro hslash hcomment hline
        rw [Option.eq_none_iff_forall_ne_some]
        rintro ⟨kind, more⟩ hopened
        obtain rfl := Literal.kind_of_openedAt?_slash hslash hcomment hopened
        rcases Literal.openedAt?_eq_regex_iff.mp hopened with ⟨body, after, hspells, rfl⟩
        exact hline (hspells.closesOnLine_iff.mpr (hbody hspells))
  refine ⟨fun more => Literal.openedAt?_eq_regex_iff, hexactly, ?_, ?_⟩
  · intro hline
    rw [hexactly]
    rintro ⟨body, after, hspells, b, hb, hbreak⟩
    rcases hline with hcloses | hescape
    · rw [hspells.closesOnLine_iff.mp hcloses b hb] at hbreak
      cases hbreak
    · rw [hspells.spelled] at hescape
      exact hescape (hspells.finishes.endsInEscape hb hbreak after)
  · intro hopens hcloses
    rcases exists_finishesRegex hcloses with ⟨body, after, hspelled, hfinishes⟩
    exact ⟨_, Literal.openedAt?_eq_regex_iff.mpr ⟨body, after, ⟨hopens, hspelled, hfinishes⟩, rfl⟩⟩

/-- The backslash escapes the line feed, and the slash on the next line ends the
regex. -/
theorem openedAt?_reads_regex_across_lines :
    Literal.openedAt? (ofString "/\\\n/") 0 none = some ⟨.regex, 3⟩ ∧
      newline ∈ (ofString "/\\\n/").take (3 + 1) ∧
      ¬ ClosesOnLine ((ofString "/\\\n/").drop 1) ∧
      ¬ ReadsRegexInLine (ofString "/\\\n/") 0 none := by
  have hopened : Literal.openedAt? (ofString "/\\\n/") 0 none = some ⟨.regex, 3⟩ := by
    decide +kernel
  have hmem : newline ∈ (ofString "/\\\n/").take (3 + 1) := by
    decide +kernel
  refine ⟨hopened, hmem, ?_, ?_⟩
  · rintro ⟨body, rest, hline, -⟩
    have hslash : slash ∉ restOfLine ((ofString "/\\\n/").drop 1) := by
      decide +kernel
    rw [hline] at hslash
    exact hslash (List.mem_append_right body List.mem_cons_self)
  · intro hreads
    exact absurd (hreads.inLine 3 hopened newline hmem) (by decide)

end LogSweep
