import LogSweep.Proofs.LiteralNewlines

/-!
# Where literals and comments end

A literal or comment ends with the byte that closes it, or before a line feed, or
with the text.  Only a regex may go on behind its closing byte, with a whole word.
-/

namespace LogSweep

open Byte Bytes

/-- Whether a string, template, regex or comment can be closed by this byte. -/
def closesLiteral (b : UInt8) : Bool :=
  b == singleQuote || b == doubleQuote || b == backtick || b == slash

/-- How a literal can end whose bytes after the first are `inside`, in front of
`beyond`. -/
inductive EndsLiteral (inside beyond : Bytes) : Prop where
  | atLineEnd :
      (∀ b ∈ beyond.head?, b = newline) → EndsLiteral inside beyond
  | closed {before : Bytes} {b : UInt8} :
      inside = before ++ [b] → closesLiteral b = true → EndsLiteral inside beyond
  | flagged {before : Bytes} {b : UInt8} :
      inside = before ++ [b] → isWord b = true → (∀ c ∈ beyond.head?, isWord c = false) →
      EndsLiteral inside beyond

theorem EndsLiteral.later {b : UInt8} {inside beyond : Bytes}
    (hends : EndsLiteral inside beyond) : EndsLiteral (b :: inside) beyond := by
  cases hends with
  | atLineEnd hline => exact .atLineEnd hline
  | closed hinside hb => exact .closed (by rw [hinside, List.cons_append]) hb
  | flagged hinside hb hbeyond => exact .flagged (by rw [hinside, List.cons_append]) hb hbeyond

/-- The count of a scanner that has read `read` bytes before `rest` and stops where
a literal can end. -/
def StopsAtEnd (rest : Bytes) (read total : Nat) : Prop :=
  ∃ count, total = read + count ∧ EndsLiteral (rest.take count) (rest.drop count)

theorem StopsAtEnd.later {b : UInt8} {rest : Bytes} {read total : Nat}
    (hstops : StopsAtEnd rest (read + 1) total) : StopsAtEnd (b :: rest) read total := by
  rcases hstops with ⟨count, rfl, hends⟩
  exact ⟨count + 1, by omega, hends.later⟩

theorem stopsAtEnd_nil (read : Nat) : StopsAtEnd [] read read :=
  ⟨0, rfl, .atLineEnd (by simp)⟩

theorem stopsAtEnd_newline (rest : Bytes) (read : Nat) : StopsAtEnd (newline :: rest) read read :=
  ⟨0, rfl, .atLineEnd (by simp)⟩

theorem stopsAtEnd_closing {b : UInt8} (hb : closesLiteral b = true) (rest : Bytes)
    (read : Nat) : StopsAtEnd (b :: rest) read (read + 1) :=
  ⟨1, rfl, .closed (List.nil_append [b]).symm hb⟩

/-! ## One scanner after the other -/

theorem stringTail_stopsAtEnd {quote : UInt8} (hquote : closesLiteral quote = true)
    (escaped : Bool) (read : Nat) (rest : Bytes) :
    StopsAtEnd rest read (stringTail quote escaped read rest) := by
  induction rest generalizing escaped read with
  | nil => exact stopsAtEnd_nil read
  | cons b rest ih =>
      rw [stringTail]
      split_ifs with hescaped hbackslash hline hcloses
      · exact (ih false (read + 1)).later
      · exact (ih true (read + 1)).later
      · exact hline ▸ stopsAtEnd_newline rest read
      · exact hcloses ▸ stopsAtEnd_closing hquote rest read
      · exact (ih false (read + 1)).later

theorem blockCommentTail_stopsAtEnd (read : Nat) (rest : Bytes) :
    StopsAtEnd rest read (blockCommentTail read rest) := by
  induction rest generalizing read with
  | nil => exact stopsAtEnd_nil read
  | cons b rest ih =>
      rw [blockCommentTail]
      split_ifs with hcloses
      · cases rest with
        | nil => simp at hcloses
        | cons next rest =>
            have hslash : next = slash := by simpa using hcloses.2
            subst next
            exact (stopsAtEnd_closing (by decide) rest (read + 1)).later
      · exact (ih (read + 1)).later

/-- Behind its closing slash a regex takes in all of a word. -/
theorem endsLiteral_flags (rest : Bytes) :
    EndsLiteral (slash :: rest.takeWhile isWord) (rest.dropWhile isWord) := by
  rcases List.eq_nil_or_concat (rest.takeWhile isWord) with hnone | ⟨flags, b, hflags⟩
  · rw [hnone]
    exact .closed (List.nil_append _).symm (by decide)
  · have hb : isWord b = true := by
      apply List.mem_takeWhile_imp (l := rest)
      rw [hflags, List.concat_eq_append]
      simp
    rw [hflags, List.concat_eq_append, ← List.cons_append]
    refine .flagged rfl hb fun c hc => ?_
    have hhead := List.head?_dropWhile_not isWord rest
    rw [Option.mem_def.mp hc] at hhead
    exact hhead

theorem regexTail?_stopsAtEnd {inClass escaped : Bool} {read total : Nat} {rest : Bytes}
    (htail : regexTail? inClass escaped read rest = some total) : StopsAtEnd rest read total := by
  induction rest generalizing inClass escaped read with
  | nil => simp [regexTail?] at htail
  | cons b rest ih =>
      rw [regexTail?] at htail
      split_ifs at htail with hescaped hbackslash hline hcloses
      · exact (ih htail).later
      · exact (ih htail).later
      · refine ⟨runLength isWord rest + 1, by simp at htail; omega, ?_⟩
        rw [List.take_succ_cons, List.drop_succ_cons, take_runLength, drop_runLength, hcloses.1]
        exact endsLiteral_flags rest
      · exact (ih htail).later

theorem templateTail_stopsAtEnd (mode : TemplateMode) (outer : List Nat) (read : Nat)
    (rest : Bytes) : StopsAtEnd rest read (templateTail mode outer read rest) :=
  templateTail_stops stopsAtEnd_nil (stopsAtEnd_closing (by decide)) StopsAtEnd.later
    mode outer read rest

theorem lineComment_endsLiteral (rest : Bytes) :
    EndsLiteral (rest.take (runLength (· != newline) rest))
      (rest.drop (runLength (· != newline) rest)) := by
  refine .atLineEnd fun b hb => ?_
  have hhead := List.head?_dropWhile_not (· != newline) rest
  rw [← drop_runLength, Option.mem_def.mp hb] at hhead
  simpa using hhead

section

variable {prev : Option UInt8} {tail : Bytes} {literal : Literal}

theorem Literal.bySlash?_endsLiteral (hopened : Literal.bySlash? prev tail = some literal) :
    EndsLiteral (tail.take literal.more) (tail.drop literal.more) := by
  cases tail with
  | nil => simp [Literal.bySlash?] at hopened
  | cons b rest =>
      rw [Literal.bySlash?] at hopened
      split_ifs at hopened
      · have hliteral := Option.some.inj hopened
        subst hliteral
        exact lineComment_endsLiteral (b :: rest)
      · have hliteral := Option.some.inj hopened
        subst hliteral
        rcases blockCommentTail_stopsAtEnd 1 rest with ⟨count, hcount, hends⟩
        rw [hcount, Nat.add_comm]
        exact hends.later
      · rcases Option.map_eq_some_iff.mp hopened with ⟨total, htail, rfl⟩
        rcases regexTail?_stopsAtEnd htail with ⟨count, rfl, hends⟩
        rwa [Nat.zero_add]

/-- Every literal and comment ends in one of these ways. -/
theorem Literal.opened?_endsLiteral {b : UInt8}
    (hopened : Literal.opened? prev b tail = some literal) :
    EndsLiteral (tail.take literal.more) (tail.drop literal.more) := by
  rcases Literal.opened?_cases hopened with ⟨-, rfl⟩ | ⟨hquote, rfl⟩ | ⟨-, hslash⟩
  · rcases templateTail_stopsAtEnd .text [] 0 tail with ⟨count, hcount, hends⟩
    rwa [hcount, Nat.zero_add]
  · have hb : closesLiteral b = true := by
      rcases hquote with rfl | rfl <;> decide
    rcases stringTail_stopsAtEnd hb false 0 tail with ⟨count, hcount, hends⟩
    rwa [hcount, Nat.zero_add]
  · exact Literal.bySlash?_endsLiteral hslash

end

end LogSweep
