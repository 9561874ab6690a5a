import LogSweep.Proofs.CarriageReturn
import LogSweep.Proofs.LiteralLines

/-!
# Literals in a text with carriage returns

A literal is found in a text with carriage returns where it is found without
them, and it is the image of the same bytes, on two conditions.  No string or
regex may hold a line feed: the backslash before it escapes a single byte, and
so the carriage return in its place.  And a literal that stops before a line
feed, as a line comment and an unclosed string do, takes the carriage return
there along.  Inside a template, or between the parentheses of a call, that
return is missing from the white space behind it, which changes nothing.
-/

namespace LogSweep

open Byte Bytes

/-! ## Literals that stop before a line feed -/

/-- Whether the bytes of a string hold its closing quote. -/
def closesString (quote : UInt8) (escaped : Bool) : Bytes → Bool
  | [] => false
  | b :: rest =>
    if escaped then closesString quote false rest
    else if b = backslash then closesString quote true rest
    else b == quote || closesString quote false rest

/-- Whether a piece of text that starts with the byte `first` can only have
ended because its line did: a line comment, or a string without its closing
quote. -/
def stopsAtLineEnd (first : UInt8) (others : Bytes) : Bool :=
  if first = slash then others.head? == some slash
  else (first == singleQuote || first == doubleQuote) &&
    !closesString first false others

/-- The counts of a scanner in a text and in its image: it reads the image of
the same bytes, and if it stops before a line feed, the carriage return that
stands there. -/
def MirrorsCount (stops : Bytes → Bool) (rest : Bytes) (count count' : Nat) : Prop :=
  ∃ body beyond, rest = body ++ beyond ∧ count = body.length ∧
    (count' = (crlf body).length ∧ (stops body = false ∨ beyond = []) ∨
      count' = (crlf body).length + 1 ∧ stops body = true ∧
        ∃ after, beyond = newline :: after)

/-- What is left behind a literal: the image of what is left, without the
carriage return at its start if the literal took it. -/
theorem MirrorsCount.exists_left {stops : Bytes → Bool} {rest : Bytes} {count count' : Nat}
    (hcount : MirrorsCount stops rest count count') :
    ∃ body, rest = body ++ rest.drop count ∧ count = body.length ∧
      (count' = (crlf body).length ∧
          (crlf rest).drop count' = crlf (rest.drop count) ∨
        count' = (crlf body).length + 1 ∧ ∃ after, rest.drop count = newline :: after ∧
          (crlf rest).drop count' = newline :: crlf after) := by
  obtain ⟨body, beyond, rfl, rfl, hcases⟩ := hcount
  refine ⟨body, by simp, rfl, ?_⟩
  rw [List.drop_left, crlf_append]
  rcases hcases with ⟨rfl, -⟩ | ⟨rfl, -, after, rfl⟩
  · exact Or.inl ⟨rfl, List.drop_left⟩
  · refine Or.inr ⟨rfl, after, rfl, ?_⟩
    rw [← List.drop_drop, List.drop_left]
    rfl

/-! ## One scanner after the other -/

/-- The string scanner in a text and in its image, unless the string holds a
line feed. -/
def MirrorsString (quote : UInt8) (escaped : Bool) (read : Nat) (rest : Bytes) :
    Prop :=
  ∃ body beyond, rest = body ++ beyond ∧
    stringTail quote escaped read rest = read + body.length ∧
    (newline ∉ body →
      stringTail quote escaped read (crlf rest) = read + body.length ∧
          (closesString quote escaped body = true ∨ beyond = []) ∨
        stringTail quote escaped read (crlf rest) = read + body.length + 1 ∧
          closesString quote escaped body = false ∧
          ∃ after, beyond = newline :: after)

theorem MirrorsString.later {quote b : UInt8} {escaped further : Bool} {read : Nat}
    {rest : Bytes}
    (hread : ∀ tail, stringTail quote escaped read (b :: tail) =
      stringTail quote further (read + 1) tail)
    (hcloses : ∀ tail, closesString quote escaped (b :: tail) =
      closesString quote further tail)
    (hmirrors : MirrorsString quote further (read + 1) rest) :
    MirrorsString quote escaped read (b :: rest) := by
  obtain ⟨body, beyond, rfl, hcount, himage⟩ := hmirrors
  have hlength : read + (b :: body).length = read + 1 + body.length := by
    rw [List.length_cons]
    omega
  refine ⟨b :: body, beyond, rfl, ?_, fun hline => ?_⟩
  · rw [hread, hcount, hlength]
  · simp only [List.mem_cons, not_or] at hline
    rw [crlf_cons_of_ne (Ne.symm hline.1), hread, hcloses, hlength]
    exact himage hline.2

theorem stringTail_mirrors {quote : UInt8} (hquote : quote ≠ carriageReturn)
    (escaped : Bool) (read : Nat) (rest : Bytes) :
    MirrorsString quote escaped read rest := by
  induction rest generalizing escaped read with
  | nil => exact ⟨[], [], rfl, rfl, fun _ => Or.inl ⟨rfl, Or.inr rfl⟩⟩
  | cons b rest ih =>
      cases escaped with
      | true => exact .later (fun _ => rfl) (fun _ => rfl) (ih false (read + 1))
      | false =>
          by_cases hbackslash : b = backslash
          · subst hbackslash
            exact .later (fun _ => rfl) (fun _ => rfl) (ih true (read + 1))
          by_cases hnewline : b = newline
          · -- the string stops here, and behind the carriage return in the image
            subst hnewline
            refine ⟨[], newline :: rest, rfl, rfl, fun _ => Or.inr ⟨?_, rfl, rest, rfl⟩⟩
            have hreturn : carriageReturn ≠ backslash ∧ carriageReturn ≠ newline := by
              decide
            simp [stringTail, Ne.symm hquote, hreturn, hbackslash]
          by_cases hclosing : b = quote
          · subst hclosing
            refine ⟨[b], rest, rfl, ?_, fun _ => Or.inl ⟨?_, Or.inl ?_⟩⟩
            · simp [stringTail, hbackslash, hnewline]
            · simp [crlf_cons_of_ne hnewline, stringTail, hbackslash, hnewline]
            · simp [closesString, hbackslash]
          · refine .later (fun tail => ?_) (fun tail => ?_) (ih false (read + 1))
            · simp [stringTail, hbackslash, hnewline, hclosing]
            · simp [closesString, hbackslash, hclosing]

theorem runLength_ne_newline_crlf (rest : Bytes) :
    ∃ body beyond, rest = body ++ beyond ∧ newline ∉ body ∧
      runLength (· != newline) rest = body.length ∧
      (runLength (· != newline) (crlf rest) = body.length ∧ beyond = [] ∨
        runLength (· != newline) (crlf rest) = body.length + 1 ∧
          ∃ after, beyond = newline :: after) := by
  induction rest with
  | nil => exact ⟨[], [], rfl, by simp, rfl, Or.inl ⟨rfl, rfl⟩⟩
  | cons b rest ih =>
      by_cases hnewline : b = newline
      · subst hnewline
        exact ⟨[], newline :: rest, rfl, by simp, rfl, Or.inr ⟨rfl, rest, rfl⟩⟩
      · obtain ⟨body, beyond, rfl, hline, hcount, himage⟩ := ih
        have hread : ∀ tail, runLength (· != newline) (b :: tail) =
            runLength (· != newline) tail + 1 := by
          intro tail
          simp [runLength, hnewline]
        refine ⟨b :: body, beyond, rfl, ?_, ?_, ?_⟩
        · simp [hline, Ne.symm hnewline]
        · rw [hread, hcount, List.length_cons]
        · rw [crlf_cons_of_ne hnewline, hread, List.length_cons]
          rcases himage with ⟨himage, hend⟩ | ⟨himage, hfeed⟩
          · exact Or.inl ⟨by rw [himage], hend⟩
          · exact Or.inr ⟨by rw [himage], hfeed⟩

/-- The count of the regex scanner in a text and in its image, unless the regex
holds a line feed. -/
def MirrorsRegex (inClass escaped : Bool) (read : Nat) (rest : Bytes) (total : Nat) :
    Prop :=
  ∃ body beyond, rest = body ++ beyond ∧ total = read + body.length ∧
    (newline ∉ body → regexTail? inClass escaped read (crlf rest) = some total)

theorem MirrorsRegex.later {inClass escaped inClass' escaped' : Bool} {b : UInt8}
    {read total : Nat} {rest : Bytes}
    (hread : ∀ tail, regexTail? inClass escaped read (b :: tail) =
      regexTail? inClass' escaped' (read + 1) tail)
    (hmirrors : MirrorsRegex inClass' escaped' (read + 1) rest total) :
    MirrorsRegex inClass escaped read (b :: rest) total := by
  obtain ⟨body, beyond, rfl, rfl, himage⟩ := hmirrors
  refine ⟨b :: body, beyond, rfl, ?_, fun hline => ?_⟩
  · rw [List.length_cons]
    omega
  · simp only [List.mem_cons, not_or] at hline
    rw [crlf_cons_of_ne (Ne.symm hline.1), hread]
    exact himage hline.2

theorem regexTail?_mirrors {inClass escaped : Bool} {read total : Nat} {rest : Bytes}
    (htail : regexTail? inClass escaped read rest = some total) :
    MirrorsRegex inClass escaped read rest total := by
  induction rest generalizing inClass escaped read with
  | nil => simp [regexTail?] at htail
  | cons b rest ih =>
      cases escaped with
      | true => exact .later (fun _ => rfl) (ih htail)
      | false =>
          by_cases hbackslash : b = backslash
          · subst hbackslash
            exact .later (fun _ => rfl) (ih htail)
          by_cases hline : b = newline ∨ b = carriageReturn
          · simp [regexTail?, hbackslash, hline] at htail
          by_cases hclosing : b = slash ∧ inClass = false
          · -- the closing slash, and the flags behind it
            obtain ⟨rfl, rfl⟩ := hclosing
            have hread : ∀ tail, regexTail? false false read (slash :: tail) =
                some (read + 1 + runLength isWord tail) := fun _ => rfl
            rw [hread, Option.some.injEq] at htail
            refine ⟨slash :: rest.takeWhile isWord, rest.dropWhile isWord, ?_, ?_, ?_⟩
            · rw [List.cons_append, List.takeWhile_append_dropWhile]
            · rw [← htail, runLength, List.length_cons]
              omega
            · intro _
              rw [crlf_cons_of_ne (by decide), hread,
                runLength_crlf (by decide) (by decide), htail]
          · have hread : ∀ tail, regexTail? inClass false read (b :: tail) =
                regexTail? (b == openBracket || (inClass && b != closeBracket)) false
                  (read + 1) tail := by
              intro tail
              rw [regexTail?]
              simp [hbackslash, hline, hclosing]
            exact .later hread (ih (hread rest ▸ htail))

theorem regexTail?_crlf_of_none {inClass escaped : Bool} {read : Nat} {rest : Bytes}
    (htail : regexTail? inClass escaped read rest = none) :
    regexTail? inClass escaped read (crlf rest) = none := by
  induction rest generalizing inClass escaped read with
  | nil => rfl
  | cons b rest ih =>
      by_cases hnewline : b = newline
      · -- the line ends, if not at the carriage return, then behind it
        subst hnewline
        cases escaped <;> rfl
      · rw [crlf_cons_of_ne hnewline]
        rw [regexTail?] at htail ⊢
        split_ifs at htail ⊢ with hescaped hbackslash hline hclosing
        · exact ih htail
        · exact ih htail
        · rfl
        · exact ih htail

theorem blockCommentTail_mirrors (read : Nat) (rest : Bytes) :
    ∃ body beyond, rest = body ++ beyond ∧
      blockCommentTail read rest = read + body.length ∧
      ∀ read', blockCommentTail read' (crlf rest) = read' + (crlf body).length := by
  induction rest generalizing read with
  | nil => exact ⟨[], [], rfl, rfl, fun _ => rfl⟩
  | cons b rest ih =>
      by_cases hclosing : b = Byte.star ∧ rest.head? = some slash
      · obtain ⟨rfl, hslash⟩ := hclosing
        obtain ⟨rest, rfl⟩ := List.head?_eq_some_iff.mp hslash
        exact ⟨[Byte.star, slash], rest, rfl, rfl, fun _ => rfl⟩
      · obtain ⟨body, beyond, rfl, hcount, himage⟩ := ih (read + 1)
        refine ⟨b :: body, beyond, rfl, ?_, fun read' => ?_⟩
        · rw [blockCommentTail, if_neg hclosing, hcount, List.length_cons]
          omega
        by_cases hnewline : b = newline
        · subst hnewline
          have hskip : blockCommentTail read' (crlf (newline :: (body ++ beyond))) =
              blockCommentTail (read' + 2) (crlf (body ++ beyond)) := rfl
          rw [hskip, himage, crlf_newline, List.length_cons, List.length_cons]
          omega
        · have hopen : ¬ (b = Byte.star ∧ (crlf (body ++ beyond)).head? = some slash) := by
            rwa [head?_crlf_eq_some_iff (by decide) (by decide)]
          rw [crlf_cons_of_ne hnewline, crlf_cons_of_ne hnewline, blockCommentTail,
            if_neg hopen, himage, List.length_cons]
          omega

/-! ## Literals of one piece -/

/-- Behind a slash that opens no comment, a regex is all that can open. -/
theorem Literal.bySlash?_cons {b : UInt8} (hslash : b ≠ slash) (hstar : b ≠ Byte.star)
    (prev : Option UInt8) (rest : Bytes) :
    Literal.bySlash? prev (b :: rest) =
      if admitsRegex prev then
        (regexTail? false false 0 (b :: rest)).map (⟨.regex, ·⟩)
      else none := by
  simp [Literal.bySlash?, hslash, hstar]

theorem Literal.bySlash?_crlf_cons {b : UInt8} (hslash : b ≠ slash)
    (hstar : b ≠ Byte.star) (prev : Option UInt8) (rest : Bytes) :
    Literal.bySlash? prev (crlf (b :: rest)) =
      if admitsRegex prev then
        (regexTail? false false 0 (crlf (b :: rest))).map (⟨.regex, ·⟩)
      else none := by
  obtain ⟨first, others, himage, hfirst⟩ := exists_crlf_cons b rest
  rw [himage]
  rcases hfirst with rfl | rfl
  · exact Literal.bySlash?_cons hslash hstar prev others
  · exact Literal.bySlash?_cons (by decide) (by decide) prev others

theorem Literal.bySlash?_crlf_of_none {prev : Option UInt8} {tail : Bytes}
    (hopened : Literal.bySlash? prev tail = none) :
    Literal.bySlash? prev (crlf tail) = none := by
  cases tail with
  | nil => rfl
  | cons b rest =>
      by_cases hline : b = slash
      · subst hline
        exact absurd hopened (Option.some_ne_none _)
      by_cases hblock : b = Byte.star
      · subst hblock
        exact absurd hopened (Option.some_ne_none _)
      rw [Literal.bySlash?_cons hline hblock] at hopened
      rw [Literal.bySlash?_crlf_cons hline hblock]
      split_ifs at hopened ⊢ with hregex
      · rw [regexTail?_crlf_of_none (Option.map_eq_none_iff.mp hopened)]
        rfl
      · rfl

theorem Literal.plain?_crlf_of_none {prev : Option UInt8} {b : UInt8} {tail : Bytes}
    (hopened : Literal.plain? prev b tail = none) :
    Literal.plain? prev b (crlf tail) = none := by
  rw [Literal.plain?] at hopened ⊢
  split_ifs at hopened ⊢ with hquote hslash
  · exact Literal.bySlash?_crlf_of_none hopened
  · rfl

theorem Literal.lineComment_mirrors (prev : Option UInt8) (rest : Bytes) :
    ∃ more, Literal.bySlash? prev (crlf (slash :: rest)) = some ⟨.lineComment, more⟩ ∧
      MirrorsCount (stopsAtLineEnd slash) (slash :: rest)
        (runLength (· != newline) (slash :: rest)) more := by
  obtain ⟨body, beyond, hsplit, hbody, hcount, himage⟩ :=
    runLength_ne_newline_crlf (slash :: rest)
  have hopens : ∀ tail, Literal.bySlash? prev (slash :: tail) =
      some ⟨.lineComment, runLength (· != newline) (slash :: tail)⟩ := fun _ => rfl
  refine ⟨_, by rw [crlf_cons_of_ne (by decide), hopens], body, beyond, hsplit,
    hcount, ?_⟩
  rw [crlf_eq_self hbody, ← crlf_cons_of_ne (by decide)]
  rcases himage with ⟨himage, hend⟩ | ⟨himage, after, rfl⟩
  · exact Or.inl ⟨himage, Or.inr hend⟩
  · refine Or.inr ⟨himage, ?_, after, rfl⟩
    cases body with
    | nil => exact absurd (List.cons.inj hsplit).1 (by decide)
    | cons c body =>
        obtain ⟨rfl, -⟩ := List.cons.inj hsplit
        rfl

theorem Literal.blockComment_mirrors (prev : Option UInt8) (rest : Bytes) :
    ∃ more, Literal.bySlash? prev (crlf (Byte.star :: rest)) =
        some ⟨.blockComment, more⟩ ∧
      MirrorsCount (stopsAtLineEnd slash) (Byte.star :: rest) (blockCommentTail 1 rest)
        more := by
  obtain ⟨body, beyond, rfl, hcount, himage⟩ := blockCommentTail_mirrors 1 rest
  have hopens : ∀ tail, Literal.bySlash? prev (Byte.star :: tail) =
      some ⟨.blockComment, blockCommentTail 1 tail⟩ := fun _ => rfl
  have hstar : ∀ bytes, crlf (Byte.star :: bytes) = Byte.star :: crlf bytes :=
    crlf_cons_of_ne (by decide)
  refine ⟨_, by rw [hstar, hopens], Byte.star :: body, beyond, rfl, ?_,
    Or.inl ⟨?_, Or.inl rfl⟩⟩
  · rw [hcount, List.length_cons, Nat.add_comm]
  · rw [himage, hstar, List.length_cons, Nat.add_comm]

/-- A regex on one line is read alike in the image, and stops behind its flags. -/
theorem Literal.regex_mirrors {b : UInt8} {rest : Bytes} {total : Nat}
    (hslash : b ≠ slash)
    (htail : regexTail? false false 0 (b :: rest) = some total)
    (hline : newline ∉ (b :: rest).take total) :
    regexTail? false false 0 (crlf (b :: rest)) = some total ∧
      MirrorsCount (stopsAtLineEnd slash) (b :: rest) total total := by
  obtain ⟨body, beyond, hsplit, htotal, himage⟩ := regexTail?_mirrors htail
  rw [Nat.zero_add] at htotal
  subst htotal
  have hbody : newline ∉ body := by
    rwa [hsplit, List.take_left] at hline
  refine ⟨himage hbody, body, beyond, hsplit, rfl,
    Or.inl ⟨by rw [crlf_eq_self hbody], Or.inl ?_⟩⟩
  cases body with
  | nil => rfl
  | cons c body =>
      obtain ⟨rfl, -⟩ := List.cons.inj hsplit
      simp [stopsAtLineEnd, hslash]

theorem Literal.bySlash?_mirrors {prev : Option UInt8} {tail : Bytes} {literal : Literal}
    (hopened : Literal.bySlash? prev tail = some literal)
    (hlines : literal.spansLines tail = false) :
    ∃ more, Literal.bySlash? prev (crlf tail) = some ⟨literal.kind, more⟩ ∧
      MirrorsCount (stopsAtLineEnd slash) tail literal.more more := by
  cases tail with
  | nil => simp [Literal.bySlash?] at hopened
  | cons b rest =>
      by_cases hline : b = slash
      · subst hline
        obtain rfl := Option.some.inj hopened
        exact Literal.lineComment_mirrors prev rest
      by_cases hblock : b = Byte.star
      · subst hblock
        obtain rfl := Option.some.inj hopened
        exact Literal.blockComment_mirrors prev rest
      rw [Literal.bySlash?_cons hline hblock] at hopened
      rw [Literal.bySlash?_crlf_cons hline hblock]
      split_ifs at hopened ⊢ with hregex
      obtain ⟨total, htail, rfl⟩ := Option.map_eq_some_iff.mp hopened
      have hfree : newline ∉ (b :: rest).take total := by
        simpa [Literal.spansLines] using hlines
      obtain ⟨himage, hcount⟩ := Literal.regex_mirrors hline htail hfree
      exact ⟨total, by rw [himage]; rfl, hcount⟩

theorem Literal.plain?_mirrors {prev : Option UInt8} {b : UInt8} {tail : Bytes}
    {literal : Literal} (hopened : Literal.plain? prev b tail = some literal)
    (hlines : literal.spansLines tail = false) :
    ∃ more, Literal.plain? prev b (crlf tail) = some ⟨literal.kind, more⟩ ∧
      MirrorsCount (stopsAtLineEnd b) tail literal.more more := by
  rw [Literal.plain?] at hopened ⊢
  split_ifs at hopened ⊢ with hquote hslash
  · simp only [Option.some.injEq] at hopened
    subst hopened
    have hreturn : b ≠ carriageReturn := by
      rcases hquote with rfl | rfl <;> decide
    have hstops : ∀ body, stopsAtLineEnd b body = !closesString b false body := by
      intro body
      rcases hquote with rfl | rfl <;> rfl
    obtain ⟨body, beyond, rfl, hcount, himage⟩ := stringTail_mirrors hreturn false 0 tail
    rw [Nat.zero_add] at hcount himage
    have hbody : newline ∉ body := by
      simpa [Literal.spansLines, hcount] using hlines
    refine ⟨_, rfl, body, beyond, rfl, hcount, ?_⟩
    rw [crlf_eq_self hbody, hstops]
    rcases himage hbody with ⟨himage, hend⟩ | ⟨himage, hopen, hfeed⟩
    · exact Or.inl ⟨himage, by simpa using hend⟩
    · exact Or.inr ⟨himage, by simp [hopen], hfeed⟩
  · subst hslash
    exact Literal.bySlash?_mirrors hopened hlines

/-! ## Templates -/

theorem templateTail_text_whitespace {b : UInt8} (hb : isWhitespace b = true)
    (outer : List Nat) (read : Nat) (rest : Bytes) :
    templateTail .text outer read (b :: rest) =
      templateTail .text outer (read + 1) rest := by
  rw [templateTail_text]
  rcases isWhitespace_cases hb with rfl | rfl | rfl | rfl | rfl <;>
    rw [if_neg (by decide), if_neg (by decide),
      if_neg fun hopens => absurd hopens.1 (by decide)]

theorem templateTail_code_whitespace {b : UInt8} (hb : isWhitespace b = true) (braces : Nat)
    (prev : Option UInt8) (outer : List Nat) (read : Nat) (rest : Bytes) :
    templateTail (.code braces prev) outer read (b :: rest) =
      templateTail (.code braces prev) outer (read + 1) rest := by
  rcases isWhitespace_cases hb with rfl | rfl | rfl | rfl | rfl <;>
    rw [templateTail] <;> rfl

/-- The template scanner reads the image of the same bytes in the image. -/
def MirrorsTemplate (mode : TemplateMode) (outer : List Nat) (rest : Bytes) : Prop :=
  ∃ body beyond, rest = body ++ beyond ∧
    (∀ read, templateTail mode outer read rest = read + body.length) ∧
    ∀ read, templateTail mode outer read (crlf rest) = read + (crlf body).length

theorem MirrorsTemplate.after {mode further : TemplateMode} {outer within : List Nat}
    {piece tail : Bytes}
    (hread : ∀ read, templateTail mode outer read (piece ++ tail) =
      templateTail further within (read + piece.length) tail)
    (himage : ∀ read, templateTail mode outer read (crlf (piece ++ tail)) =
      templateTail further within (read + (crlf piece).length) (crlf tail))
    (hmirrors : MirrorsTemplate further within tail) :
    MirrorsTemplate mode outer (piece ++ tail) := by
  obtain ⟨body, beyond, rfl, hcount, hcount'⟩ := hmirrors
  refine ⟨piece ++ body, beyond, by simp, fun read => ?_, fun read => ?_⟩
  · rw [hread, hcount, List.length_append]
    omega
  · rw [himage, hcount', crlf_append, List.length_append]
    omega

theorem MirrorsTemplate.afterByte {mode further : TemplateMode} {outer within : List Nat}
    {b : UInt8} {tail : Bytes} (hb : b ≠ newline)
    (hread : ∀ read, templateTail mode outer read (b :: tail) =
      templateTail further within (read + 1) tail)
    (himage : ∀ read, templateTail mode outer read (b :: crlf tail) =
      templateTail further within (read + 1) (crlf tail))
    (hmirrors : MirrorsTemplate further within tail) :
    MirrorsTemplate mode outer (b :: tail) := by
  show MirrorsTemplate mode outer ([b] ++ tail)
  refine .after hread (fun read => ?_) hmirrors
  rw [List.singleton_append, crlf_cons_of_ne hb, crlf_cons_of_ne hb]
  exact himage read

/-- A template is the image of itself in the image, line feeds in its text
included. -/
theorem templateTail_mirrors {mode : TemplateMode} {outer : List Nat} {rest : Bytes}
    (hlines : templateSpansLines mode outer rest = false) :
    MirrorsTemplate mode outer rest := by
  fun_induction templateSpansLines mode outer rest with
  | case1 mode outer => exact ⟨[], [], rfl, by simp [templateTail], by simp [templateTail]⟩
  -- after a backslash, and at one
  | case2 outer b tail ih =>
      by_cases hb : b = newline
      · -- what is escaped in the image is the carriage return
        subst hb
        show MirrorsTemplate .escape outer ([newline] ++ tail)
        refine .after (fun _ => by rw [List.singleton_append, templateTail]; rfl)
          (fun _ => ?_) (ih hlines)
        rw [List.singleton_append, crlf_newline, templateTail,
          templateTail_text_whitespace (by decide)]
        rfl
      · exact .afterByte hb (fun _ => by rw [templateTail])
          (fun _ => by rw [templateTail]) (ih hlines)
  | case3 outer tail ih =>
      exact .afterByte (by decide) (fun _ => by rw [templateTail_text, if_pos rfl])
        (fun _ => by rw [templateTail_text, if_pos rfl]) (ih hlines)
  -- a backtick closes the outermost template, or one inside a substitution
  | case4 tail hbackslash =>
      refine ⟨[backtick], tail, rfl, fun _ => ?_, fun _ => ?_⟩
      · rw [templateTail_text, if_neg hbackslash, if_pos rfl]
        rfl
      · rw [crlf_cons_of_ne (by decide), templateTail_text, if_neg hbackslash,
          if_pos rfl]
        rfl
  | case5 tail braces outer hbackslash ih =>
      exact .afterByte (by decide)
        (fun _ => by rw [templateTail_text, if_neg hbackslash, if_pos rfl])
        (fun _ => by rw [templateTail_text, if_neg hbackslash, if_pos rfl]) (ih hlines)
  -- a substitution is opened
  | case6 outer b tail hbackslash hbacktick hopens ih =>
      obtain ⟨rfl, hbrace⟩ := hopens
      obtain ⟨tail, rfl⟩ := List.head?_eq_some_iff.mp hbrace
      have hread : ∀ read bytes,
          templateTail .text outer read (dollar :: openBrace :: bytes) =
            templateTail (.code 0 (some openBrace)) outer (read + 2) bytes := by
        intro read bytes
        rw [templateTail_text, if_neg hbackslash, if_neg hbacktick, if_pos ⟨rfl, rfl⟩]
        rfl
      show MirrorsTemplate .text outer ([dollar, openBrace] ++ tail)
      refine .after (fun _ => hread _ _) (fun _ => ?_) (ih hlines)
      rw [crlf_append]
      exact hread _ _
  | case7 outer b tail hbackslash hbacktick hopens ih =>
      by_cases hb : b = newline
      · subst hb
        show MirrorsTemplate .text outer ([newline] ++ tail)
        refine .after (fun _ => templateTail_text_whitespace (by decide) ..)
          (fun _ => ?_) (ih hlines)
        rw [List.singleton_append, crlf_newline, templateTail_text_whitespace (by decide),
          templateTail_text_whitespace (by decide)]
        rfl
      · have hopens' : ¬ (b = dollar ∧ (crlf tail).head? = some openBrace) := by
          rwa [head?_crlf_eq_some_iff (by decide) (by decide)]
        refine .afterByte hb (fun _ => ?_) (fun _ => ?_) (ih hlines)
        · rw [templateTail_text, if_neg hbackslash, if_neg hbacktick, if_neg hopens]
        · rw [templateTail_text, if_neg hbackslash, if_neg hbacktick, if_neg hopens']
  -- inside a substitution: a template, another literal, a byte of code
  | case8 outer tail braces prev ih =>
      exact .afterByte (by decide) (fun _ => by rw [templateTail, if_pos rfl])
        (fun _ => by rw [templateTail, if_pos rfl]) (ih hlines)
  | case9 outer b tail braces prev hbacktick literal hopened ih =>
      rw [Bool.or_eq_false_iff] at hlines
      obtain ⟨more, himage, hcount⟩ := Literal.plain?_mirrors hopened hlines.1
      obtain ⟨body, hsplit, hmore, hleft⟩ := hcount.exists_left
      have hb : b ≠ newline := by
        rintro rfl
        exact absurd hopened.symm (Option.some_ne_none literal)
      have hlength : literal.length = (b :: body).length := by
        rw [Literal.length, hmore, List.length_cons]
      rw [hsplit]
      show MirrorsTemplate (.code braces prev) outer (b :: body ++ tail.drop literal.more)
      refine .after (fun _ => ?_) (fun read => ?_) (ih hlines.2)
      · rw [List.cons_append, ← hsplit, templateTail, if_neg hbacktick, hopened, ← hlength]
      · have hread : templateTail (.code braces prev) outer read (crlf (b :: tail)) =
            templateTail (.code braces (literal.lastCode prev)) outer (read + (more + 1))
              ((crlf tail).drop more) := by
          rw [crlf_cons_of_ne hb, templateTail, if_neg hbacktick, himage]
          rfl
        rw [List.cons_append, ← hsplit, hread, crlf_cons_of_ne hb, List.length_cons]
        rcases hleft with ⟨rfl, hleft⟩ | ⟨rfl, after, hfeed, hleft⟩
        · rw [hleft]
        · -- the carriage return went with the literal
          rw [hleft, hfeed, crlf_newline]
          exact (templateTail_code_whitespace (by decide) ..).symm
  | case10 outer b tail braces prev hbacktick hopened ih =>
      by_cases hb : b = newline
      · subst hb
        show MirrorsTemplate (.code braces prev) outer ([newline] ++ tail)
        refine .after (fun _ => templateTail_code_whitespace (by decide) ..)
          (fun _ => ?_) (ih hlines)
        rw [List.singleton_append, crlf_newline, templateTail_code_whitespace (by decide),
          templateTail_code_whitespace (by decide)]
        rfl
      · refine .afterByte hb (fun _ => ?_) (fun _ => ?_) (ih hlines)
        · rw [templateTail, if_neg hbacktick, hopened]
        · rw [templateTail, if_neg hbacktick, Literal.plain?_crlf_of_none hopened]

/-! ## Code -/

theorem Literal.opened?_crlf_of_none {prev : Option UInt8} {b : UInt8} {tail : Bytes}
    (hopened : Literal.opened? prev b tail = none) :
    Literal.opened? prev b (crlf tail) = none := by
  rw [Literal.opened?] at hopened ⊢
  split_ifs at hopened ⊢ with hbacktick
  exact Literal.plain?_crlf_of_none hopened

theorem Literal.opened?_mirrors {prev : Option UInt8} {b : UInt8} {tail : Bytes}
    {literal : Literal} (hopened : Literal.opened? prev b tail = some literal)
    (hlines : opensAcrossLines prev b tail = false) :
    ∃ more, Literal.opened? prev b (crlf tail) = some ⟨literal.kind, more⟩ ∧
      MirrorsCount (stopsAtLineEnd b) tail literal.more more := by
  rw [Literal.opened?] at hopened ⊢
  rw [opensAcrossLines] at hlines
  split_ifs at hopened hlines ⊢ with hbacktick
  · subst hbacktick
    simp only [Option.some.injEq] at hopened
    subst hopened
    obtain ⟨body, beyond, hsplit, hcount, himage⟩ := templateTail_mirrors hlines
    refine ⟨_, rfl, body, beyond, hsplit, ?_, Or.inl ⟨?_, Or.inl rfl⟩⟩
    · rw [hcount, Nat.zero_add]
    · rw [himage, Nat.zero_add]
  · rw [hopened] at hlines
    exact Literal.plain?_mirrors hopened hlines

theorem closeParen_isSolid : IsSolid closeParen := by
  unfold IsSolid
  decide

/-- A byte of code that is no parenthesis does not matter in the search for one. -/
theorem closingIn_codeAfter_of_ne {prev : Option UInt8} {b : UInt8} {rest : Bytes}
    (hcode : Literal.opened? prev b rest = none) (hopen : b ≠ openParen)
    (hclose : b ≠ closeParen) (depth offset : Nat) :
    closingIn openParen closeParen depth (codeAfter prev offset (b :: rest)) =
      closingIn openParen closeParen depth
        (codeAfter (lastCodeAfter b prev) (offset + 1) rest) := by
  rw [codeAfter, hcode, closingIn.eq_def]
  simp [hopen, hclose]

theorem closingIn_codeAfter_whitespace {b : UInt8} (hb : isWhitespace b = true)
    (depth : Nat) (prev : Option UInt8) (offset : Nat) (rest : Bytes) :
    closingIn openParen closeParen depth (codeAfter prev offset (b :: rest)) =
      closingIn openParen closeParen depth (codeAfter prev (offset + 1) rest) := by
  have hcode := opened?_eq_none_of_isWhitespace hb prev rest
  rcases isWhitespace_cases hb with rfl | rfl | rfl | rfl | rfl <;>
    exact closingIn_codeAfter_of_ne hcode (by decide) (by decide) depth offset

/-- The search for a closing parenthesis in a text and in its image: it fails in
both, or finds the end of the image of the same bytes. -/
def MirrorsClosing (depth : Nat) (prev : Option UInt8) (rest : Bytes) : Prop :=
  (∀ offset, closingIn openParen closeParen depth (codeAfter prev offset rest) =
      .unclosed →
    ∀ offset', closingIn openParen closeParen depth
      (codeAfter prev offset' (crlf rest)) = .unclosed) ∧
  ∀ offset closing,
    closingIn openParen closeParen depth (codeAfter prev offset rest) = .found closing →
    ∃ body beyond, rest = body ++ closeParen :: beyond ∧ closing = offset + body.length ∧
      ∀ offset', closingIn openParen closeParen depth
        (codeAfter prev offset' (crlf rest)) = .found (offset' + (crlf body).length)

theorem MirrorsClosing.after {depth further : Nat} {prev prev' : Option UInt8}
    {piece tail : Bytes}
    (hread : ∀ offset, closingIn openParen closeParen depth
        (codeAfter prev offset (piece ++ tail)) =
      closingIn openParen closeParen further
        (codeAfter prev' (offset + piece.length) tail))
    (himage : ∀ offset, closingIn openParen closeParen depth
        (codeAfter prev offset (crlf (piece ++ tail))) =
      closingIn openParen closeParen further
        (codeAfter prev' (offset + (crlf piece).length) (crlf tail)))
    (hmirrors : MirrorsClosing further prev' tail) :
    MirrorsClosing depth prev (piece ++ tail) := by
  obtain ⟨hunclosed, hfound⟩ := hmirrors
  refine ⟨fun offset hsearch offset' => ?_, fun offset closing hsearch => ?_⟩
  · rw [himage]
    exact hunclosed _ (hread offset ▸ hsearch) _
  · rw [hread] at hsearch
    obtain ⟨body, beyond, rfl, rfl, hclosing⟩ := hfound _ _ hsearch
    refine ⟨piece ++ body, beyond, by simp, ?_, fun offset' => ?_⟩
    · rw [List.length_append, Nat.add_assoc]
    · rw [himage, hclosing, crlf_append, List.length_append, Nat.add_assoc]

theorem MirrorsClosing.afterByte {depth further : Nat} {prev prev' : Option UInt8}
    {b : UInt8} {tail : Bytes} (hb : b ≠ newline)
    (hcode : Literal.opened? prev b tail = none)
    (hread : ∀ tail offset, Literal.opened? prev b tail = none →
      closingIn openParen closeParen depth (codeAfter prev offset (b :: tail)) =
        closingIn openParen closeParen further (codeAfter prev' (offset + 1) tail))
    (hmirrors : MirrorsClosing further prev' tail) :
    MirrorsClosing depth prev (b :: tail) := by
  show MirrorsClosing depth prev ([b] ++ tail)
  refine .after (fun offset => hread tail offset hcode) (fun offset => ?_) hmirrors
  rw [List.singleton_append, crlf_cons_of_ne hb, crlf_cons_of_ne hb]
  exact hread (crlf tail) offset (Literal.opened?_crlf_of_none hcode)

/-- Where no string or regex up to it holds a line feed, the closing parenthesis
is the same byte in the image. -/
theorem closingIn_mirrors {depth : Nat} {prev : Option UInt8} {rest : Bytes}
    (hlines : argumentsAcrossLines depth prev rest = false) :
    MirrorsClosing depth prev rest := by
  fun_induction argumentsAcrossLines depth prev rest with
  | case1 depth prev =>
      refine ⟨fun offset _ offset' => ?_, fun offset closing hsearch => ?_⟩
      · rw [crlf_nil, codeAfter, closingIn]
      · rw [codeAfter, closingIn] at hsearch
        cases hsearch
  | case2 depth prev b tail literal hopened ih =>
      rw [Bool.or_eq_false_iff] at hlines
      obtain ⟨more, himage, hcount⟩ := Literal.opened?_mirrors hopened hlines.1
      obtain ⟨body, hsplit, hmore, hleft⟩ := hcount.exists_left
      have hb : b ≠ newline := by
        rintro rfl
        exact absurd hopened.symm (Option.some_ne_none literal)
      have hlength : literal.length = (b :: body).length := by
        rw [Literal.length, hmore, List.length_cons]
      rw [hsplit]
      show MirrorsClosing depth prev (b :: body ++ tail.drop literal.more)
      refine .after (fun _ => ?_) (fun offset => ?_) (ih hlines.2)
      · rw [List.cons_append, ← hsplit, codeAfter, hopened, ← hlength]
      · have hread : codeAfter prev offset (crlf (b :: tail)) =
            codeAfter (literal.lastCode prev) (offset + (more + 1))
              ((crlf tail).drop more) := by
          rw [crlf_cons_of_ne hb, codeAfter, himage]
          rfl
        rw [List.cons_append, ← hsplit, hread, crlf_cons_of_ne hb, List.length_cons]
        rcases hleft with ⟨rfl, hleft⟩ | ⟨rfl, after, hfeed, hleft⟩
        · rw [hleft]
        · -- the carriage return went with the literal
          rw [hleft, hfeed, crlf_newline]
          exact (closingIn_codeAfter_whitespace (by decide) ..).symm
  | case3 depth prev tail hcode ih =>
      refine .afterByte (by decide) hcode (fun tail offset _ => ?_) (ih hlines)
      rw [codeAfter_solid openParen_isSolid]
      rfl
  | case4 depth prev tail hcode hopen ih =>
      obtain _ | _ | depth := depth
      · refine ⟨fun offset hsearch => ?_, fun offset closing hsearch => ?_⟩ <;>
          rw [codeAfter_solid closeParen_isSolid] at hsearch <;> cases hsearch
      · refine ⟨fun offset hsearch => ?_, fun offset closing hsearch => ?_⟩ <;>
          rw [codeAfter_solid closeParen_isSolid] at hsearch
        · cases hsearch
        · refine ⟨[], tail, rfl, (Closing.found.inj hsearch).symm, fun offset' => ?_⟩
          rw [crlf_cons_of_ne (by decide), codeAfter_solid closeParen_isSolid]
          rfl
      · refine .afterByte (by decide) hcode (fun tail offset _ => ?_) (ih ?_)
        · rw [codeAfter_solid closeParen_isSolid]
          rfl
        · simpa using hlines
  | case5 depth prev b tail hcode hopen hclose ih =>
      by_cases hb : b = newline
      · subst hb
        show MirrorsClosing depth prev ([newline] ++ tail)
        refine .after (fun _ => closingIn_codeAfter_whitespace (by decide) ..)
          (fun _ => ?_) (ih hlines)
        rw [List.singleton_append, crlf_newline,
          closingIn_codeAfter_whitespace (by decide),
          closingIn_codeAfter_whitespace (by decide)]
        rfl
      · exact .afterByte hb hcode
          (fun tail offset hcode => closingIn_codeAfter_of_ne hcode hopen hclose depth offset)
          (ih hlines)

end LogSweep
