import LogSweep.Proofs.LiteralSpelling

/-!
# How a string is spelled

A string ends behind the first quote of its own that is not escaped.  If a line
feed that is not escaped stands in front of that quote, the string ends before
the line feed, and if there is neither, it ends with the text.  The scan
remembers no more than whether the byte before was a backslash that escapes, and
that is the parity of the run of backslashes at the end of what it has read.
-/

namespace LogSweep

open Byte Bytes

/-! ## Bytes that are not escaped -/

section

variable {before rest : Bytes} {place count : Nat} {quote b c : UInt8}

/-- Behind the bytes `before` of a literal, `b` is the byte at this place of the
rest, and it is not escaped. -/
def IsBareIn (before rest : Bytes) (place : Nat) (b : UInt8) : Prop :=
  rest[place]? = some b ∧ ¬ EndsInEscape (before ++ rest.take place)

theorem isBareIn_zero : IsBareIn before (c :: rest) 0 b ↔ c = b ∧ ¬ EndsInEscape before := by
  simp [IsBareIn]

theorem isBareIn_succ :
    IsBareIn before (c :: rest) (place + 1) b ↔ IsBareIn (before ++ [c]) rest place b := by
  simp [IsBareIn]

/-! ## The scan -/

/-- The string goes on through the first `count` bytes of the rest: none of them
is a quote or a line feed that is not escaped. -/
def StringGoesOn (quote : UInt8) (before rest : Bytes) (count : Nat) : Prop :=
  ∀ place b, place < count → IsBareIn before rest place b → b ≠ quote ∧ b ≠ newline

/-- The string that `before` begins takes `count` bytes of the rest. -/
inductive StringEndsIn (quote : UInt8) (before rest : Bytes) : Nat → Prop where
  | closed {place : Nat} :
      StringGoesOn quote before rest place → IsBareIn before rest place quote →
        StringEndsIn quote before rest (place + 1)
  | atNewline {place : Nat} :
      StringGoesOn quote before rest place → IsBareIn before rest place newline →
        StringEndsIn quote before rest place
  | atEnd :
      StringGoesOn quote before rest rest.length →
        StringEndsIn quote before rest rest.length

theorem stringGoesOn_zero : StringGoesOn quote before rest 0 :=
  fun _ _ hlt => absurd hlt (Nat.not_lt_zero _)

theorem StringGoesOn.later (hfirst : c = quote ∨ c = newline → EndsInEscape before)
    (hgoesOn : StringGoesOn quote (before ++ [c]) rest count) :
    StringGoesOn quote before (c :: rest) (count + 1) := by
  intro place b hlt hbare
  cases place with
  | zero =>
      rcases isBareIn_zero.mp hbare with ⟨rfl, hescape⟩
      exact not_or.mp fun hstop => hescape (hfirst hstop)
  | succ place => exact hgoesOn place b (Nat.lt_of_succ_lt_succ hlt) (isBareIn_succ.mp hbare)

theorem StringEndsIn.later (hfirst : c = quote ∨ c = newline → EndsInEscape before)
    (hends : StringEndsIn quote (before ++ [c]) rest count) :
    StringEndsIn quote before (c :: rest) (count + 1) := by
  cases hends with
  | closed hgoesOn hbare => exact .closed (hgoesOn.later hfirst) (isBareIn_succ.mpr hbare)
  | atNewline hgoesOn hbare => exact .atNewline (hgoesOn.later hfirst) (isBareIn_succ.mpr hbare)
  | atEnd hgoesOn => exact .atEnd (hgoesOn.later hfirst)

/-- The flag of the scan tells whether what was read escapes the next byte, and
with that the scan stops where the string ends. -/
theorem stringTail_endsIn (hquote : quote ≠ backslash) {escaped : Bool}
    (hescaped : escaped = true ↔ EndsInEscape before) (read : Nat) (rest : Bytes) :
    ∃ count, stringTail quote escaped read rest = read + count ∧
      StringEndsIn quote before rest count := by
  induction rest generalizing escaped before read with
  | nil => exact ⟨0, rfl, .atEnd stringGoesOn_zero⟩
  | cons b rest ih =>
      have hlater : ∀ {escaped'}, (b = quote ∨ b = newline → EndsInEscape before) →
          (escaped' = true ↔ EndsInEscape (before ++ [b])) →
          ∃ count, stringTail quote escaped' (read + 1) rest = read + count ∧
            StringEndsIn quote before (b :: rest) count := by
        intro escaped' hfirst hescaped'
        rcases ih hescaped' (read + 1) with ⟨count, hcount, hends⟩
        exact ⟨count + 1, by omega, hends.later hfirst⟩
      cases escaped with
      | true =>
          -- whatever this byte is, the string goes on, and it escapes none itself
          have hescape : EndsInEscape before := hescaped.mp rfl
          rw [stringTail, if_pos rfl]
          apply hlater fun _ => hescape
          rw [endsInEscape_concat_iff]
          simp [hescape]
      | false =>
          have hbare : ¬ EndsInEscape before :=
            fun hescape => Bool.false_ne_true (hescaped.mpr hescape)
          rw [stringTail, if_neg Bool.false_ne_true]
          split_ifs with hbackslash hnewline hclosing
          · apply hlater
            · rintro (hstop | hstop)
              · exact absurd (hstop.symm.trans hbackslash) hquote
              · exact absurd (hstop.symm.trans hbackslash) (by decide)
            · rw [endsInEscape_concat_iff]
              simp [hbackslash, hbare]
          · exact ⟨0, rfl, .atNewline stringGoesOn_zero (isBareIn_zero.mpr ⟨hnewline, hbare⟩)⟩
          · exact ⟨1, rfl, .closed stringGoesOn_zero (isBareIn_zero.mpr ⟨hclosing, hbare⟩)⟩
          · apply hlater
            · rintro (hstop | hstop)
              · exact absurd hstop hclosing
              · exact absurd hstop hnewline
            · rw [endsInEscape_concat_iff]
              simp [hbackslash]

end

/-! ## Where a string ends -/

section

variable {src : Bytes} {start place : Nat} {quote b : UInt8}

/-- Behind the opening quote at `start`, `b` is the byte at this place, and it is
not escaped by the bytes between the two. -/
structure IsBareAt (src : Bytes) (start place : Nat) (b : UInt8) : Prop where
  behind : start < place
  byte : src[place]? = some b
  bare : ¬ EndsInEscape ((src.take place).drop (start + 1))

/-- This place holds the first `b` behind the opening quote that is not escaped. -/
structure IsFirstBareAt (src : Bytes) (start place : Nat) (b : UInt8) : Prop where
  here : IsBareAt src start place b
  first : ∀ earlier, earlier < place → ¬ IsBareAt src start earlier b

/-- The quote at this place closes the string that opens at `start`: it is the
first that is not escaped, and so is every line feed before it. -/
structure ClosesString (src : Bytes) (start : Nat) (quote : UInt8) (place : Nat) : Prop where
  quote : IsFirstBareAt src start place quote
  inLine : ∀ earlier, earlier < place → ¬ IsBareAt src start earlier newline

/-- The string that opens at `start` ends at this place: behind the quote that
closes it, or else before the first line feed that is not escaped, or else with
the text. -/
inductive StringEndsAt (src : Bytes) (start : Nat) (quote : UInt8) : Nat → Prop where
  | closed {place : Nat} :
      ClosesString src start quote place → StringEndsAt src start quote (place + 1)
  | atNewline {place : Nat} :
      (∀ closing, ¬ ClosesString src start quote closing) →
        IsFirstBareAt src start place newline → StringEndsAt src start quote place
  | atEnd :
      (∀ closing, ¬ ClosesString src start quote closing) →
        (∀ place, ¬ IsBareAt src start place newline) →
          StringEndsAt src start quote src.length

theorem isBareAt_iff :
    IsBareAt src start (start + 1 + place) b ↔ IsBareIn [] (src.drop (start + 1)) place b := by
  have htake : (src.take (start + 1 + place)).drop (start + 1) =
      (src.drop (start + 1)).take place := by
    rw [List.drop_take, Nat.add_sub_cancel_left]
  rw [IsBareIn, List.getElem?_drop, List.nil_append, ← htake]
  constructor
  · intro hbare
    exact ⟨hbare.byte, hbare.bare⟩
  · rintro ⟨hbyte, hbare⟩
    exact ⟨by omega, hbyte, hbare⟩

theorem IsBareAt.exists_eq (hbare : IsBareAt src start place b) :
    ∃ skipped, place = start + 1 + skipped :=
  ⟨place - (start + 1), (Nat.add_sub_cancel' hbare.behind).symm⟩

theorem IsFirstBareAt.unique {place' : Nat} (hfirst : IsFirstBareAt src start place b)
    (hfirst' : IsFirstBareAt src start place' b) : place = place' := by
  rcases lt_trichotomy place place' with hlt | heq | hlt
  · exact absurd hfirst.here (hfirst'.first place hlt)
  · exact heq
  · exact absurd hfirst'.here (hfirst.first place' hlt)

theorem StringEndsAt.unique {stop stop' : Nat} (hends : StringEndsAt src start quote stop)
    (hends' : StringEndsAt src start quote stop') : stop = stop' := by
  cases hends with
  | closed hcloses =>
      cases hends' with
      | closed hcloses' => rw [hcloses.quote.unique hcloses'.quote]
      | atNewline hnone => exact absurd hcloses (hnone _)
      | atEnd hnone => exact absurd hcloses (hnone _)
  | atNewline hnone hline =>
      cases hends' with
      | closed hcloses' => exact absurd hcloses' (hnone _)
      | atNewline _ hline' => exact hline.unique hline'
      | atEnd _ hnoLine => exact absurd hline.here (hnoLine _)
  | atEnd hnone hnoLine =>
      cases hends' with
      | closed hcloses' => exact absurd hcloses' (hnone _)
      | atNewline _ hline' => exact absurd hline'.here (hnoLine _)
      | atEnd => rfl

theorem StringGoesOn.not_isBareAt {count : Nat}
    (hgoesOn : StringGoesOn quote [] (src.drop (start + 1)) count) (hlt : place < start + 1 + count) :
    ¬ IsBareAt src start place quote ∧ ¬ IsBareAt src start place newline := by
  have hother : ∀ {b}, IsBareAt src start place b → b ≠ quote ∧ b ≠ newline := by
    intro b hbare
    rcases hbare.exists_eq with ⟨skipped, rfl⟩
    exact hgoesOn skipped b (Nat.lt_of_add_lt_add_left hlt) (isBareAt_iff.mp hbare)
  exact ⟨fun hbare => (hother hbare).1 rfl, fun hbare => (hother hbare).2 rfl⟩

theorem StringEndsIn.endsAt {count : Nat} (hquote : quote ≠ newline) (hlt : start < src.length)
    (hends : StringEndsIn quote [] (src.drop (start + 1)) count) :
    StringEndsAt src start quote (start + 1 + count) := by
  cases hends with
  | @closed place hgoesOn hbare =>
      refine .closed ⟨⟨isBareAt_iff.mpr hbare, ?_⟩, ?_⟩
      · exact fun earlier hearlier => (hgoesOn.not_isBareAt hearlier).1
      · exact fun earlier hearlier => (hgoesOn.not_isBareAt hearlier).2
  | atNewline hgoesOn hbare =>
      have hline := isBareAt_iff.mpr hbare
      refine .atNewline ?_ ⟨hline, fun earlier hearlier => (hgoesOn.not_isBareAt hearlier).2⟩
      -- a quote that closes can stand neither before the line feed nor behind it
      intro closing hcloses
      rcases lt_trichotomy closing (start + 1 + count) with hearlier | rfl | hlater
      · exact (hgoesOn.not_isBareAt hearlier).1 hcloses.quote.here
      · exact hquote (Option.some.inj (hcloses.quote.here.byte.symm.trans hline.byte))
      · exact hcloses.inLine _ hlater hline
  | atEnd hgoesOn =>
      have hlength : start + 1 + (src.drop (start + 1)).length = src.length := by
        rw [List.length_drop]
        omega
      have hwithin : ∀ {place b}, IsBareAt src start place b →
          place < start + 1 + (src.drop (start + 1)).length := by
        intro place b hbare
        rw [hlength]
        exact (List.getElem?_eq_some_iff.mp hbare.byte).1
      rw [hlength]
      refine .atEnd ?_ ?_
      · intro closing hcloses
        exact (hgoesOn.not_isBareAt (hwithin hcloses.quote.here)).1 hcloses.quote.here
      · exact fun place hbare => (hgoesOn.not_isBareAt (hwithin hbare)).2 hbare

end

/-- At a quote there is a string, and it ends behind the first quote of its own
that is not escaped, if every line feed before that is; else it ends before the
first line feed that is not escaped; and else with the text. -/
theorem openedAt?_spells_string {src : Bytes} {start : Nat} {quote : UInt8}
    (hquote : quote = singleQuote ∨ quote = doubleQuote) (hbyte : src[start]? = some quote)
    (prev : Option UInt8) :
    Literal.openedAt? src start prev =
        some ⟨.string, stringTail quote false 0 (src.drop (start + 1))⟩ ∧
      ∀ stop, StringEndsAt src start quote stop ↔
        stop = start + 1 + stringTail quote false 0 (src.drop (start + 1)) := by
  have hother : quote ≠ backtick ∧ quote ≠ backslash ∧ quote ≠ newline := by
    rcases hquote with rfl | rfl <;> decide
  rcases hother with ⟨hbacktick, hbackslash, hnewline⟩
  constructor
  · rw [Literal.openedAt?_of_drop (drop_eq_cons_of_getElem? hbyte), Literal.opened?,
      if_neg hbacktick, Literal.plain?, if_pos hquote]
  · have hlt := (List.getElem?_eq_some_iff.mp hbyte).1
    have hflag : false = true ↔ EndsInEscape [] :=
      iff_of_false Bool.false_ne_true not_endsInEscape_nil
    rcases stringTail_endsIn hbackslash hflag 0 (src.drop (start + 1)) with
      ⟨count, hcount, hends⟩
    rw [hcount, Nat.zero_add]
    have hendsAt := hends.endsAt hnewline hlt
    intro stop
    constructor
    · exact fun hstop => hstop.unique hendsAt
    · rintro rfl
      exact hendsAt

/-- One string closes behind an escaped quote and two backslashes, one stops at its
second line feed, and one has its only further quote escaped. -/
theorem openedAt?_spells_string_escapes :
    ((ofString "x = 'it\\'s \\\\' + y")[4]? = some singleQuote ∧
      Literal.openedAt? (ofString "x = 'it\\'s \\\\' + y") 4 none = some ⟨.string, 9⟩ ∧
      StringEndsAt (ofString "x = 'it\\'s \\\\' + y") 4 singleQuote 14) ∧
    StringEndsAt (ofString "'\\\n\\\\\n'") 0 singleQuote 5 ∧
    StringEndsAt (ofString "\"a\\\"") 0 doubleQuote 4 := by
  have hbyte : (ofString "x = 'it\\'s \\\\' + y")[4]? = some singleQuote := by
    decide +kernel
  have hclosed := openedAt?_spells_string (Or.inl rfl) hbyte none
  have hcount :
      stringTail singleQuote false 0 ((ofString "x = 'it\\'s \\\\' + y").drop (4 + 1)) = 9 := by
    decide +kernel
  rw [hcount] at hclosed
  refine ⟨⟨hbyte, hclosed.1, (hclosed.2 14).mpr rfl⟩, ?_, ?_⟩
  · apply ((openedAt?_spells_string (Or.inl rfl) _ none).2 5).mpr <;> decide +kernel
  · apply ((openedAt?_spells_string (Or.inr rfl) _ none).2 4).mpr <;> decide +kernel

end LogSweep
