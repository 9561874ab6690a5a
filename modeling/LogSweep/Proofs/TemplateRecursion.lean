import LogSweep.Proofs.LiteralExtent

/-!
# Templates read level by level

`templateTail` reads all levels of a template in one loop, with a list of the
open braces of the enclosing substitutions.  Here a template is read the plain
way instead: a substitution calls for each template in it and skips what that
counts.  The two agree.  The invariant of the loop is `levelsTail`: from each
state it counts what the plain reading counts for the innermost level, then for
the levels around it.
-/

namespace LogSweep

open Byte Bytes

/-! ## The plain reading -/

/-- The open braces of a substitution after a byte of code. -/
def bracesAfter (b : UInt8) (braces : Nat) : Nat :=
  if b = openBrace then braces + 1
  else if b = closeBrace then braces - 1
  else braces

mutual

/-- Counts the bytes of a template up to and with its closing backtick; none if
the text ends first, in the template or in anything inside it. -/
def textTail? : Bytes → Option Nat
  | [] => none
  | b :: tail =>
    if b = backslash then (textTail? (tail.drop 1)).map (2 + ·)
    else if b = backtick then some 1
    else if b = dollar ∧ tail.head? = some openBrace then
      match substitutionTail? 0 (some openBrace) (tail.drop 1) with
      | none => none
      | some inner => (textTail? (tail.drop (1 + inner))).map (2 + inner + ·)
    else (textTail? tail).map (1 + ·)
termination_by rest => rest.length
decreasing_by all_goals simp only [List.length_cons, List.length_drop]; omega

/-- Counts the bytes of a substitution up to and with the `}` that closes it,
given the braces open in it and its last code byte. -/
def substitutionTail? (braces : Nat) (prev : Option UInt8) : Bytes → Option Nat
  | [] => none
  | b :: tail =>
    if b = backtick then
      match textTail? tail with
      | none => none
      | some inner =>
        (substitutionTail? braces (some valueByte) (tail.drop inner)).map (1 + inner + ·)
    else
      match Literal.plain? prev b tail with
      | some literal =>
        (substitutionTail? braces (literal.lastCode prev) (tail.drop literal.more)).map
          (literal.length + ·)
      | none =>
        if b = closeBrace ∧ braces = 0 then some 1
        else
          (substitutionTail? (bracesAfter b braces) (lastCodeAfter b prev) tail).map (1 + ·)
termination_by rest => rest.length
decreasing_by all_goals simp only [List.length_cons, List.length_drop]; omega

end

/-- The offset after the template that starts at an offset. -/
def templateEnd (src : Bytes) (start : Nat) : Nat :=
  match textTail? (src.drop (start + 1)) with
  | none => src.length
  | some count => start + 1 + count

theorem map_add_map (first second : Nat) (count? : Option Nat) :
    (count?.map (second + ·)).map (first + ·) = count?.map (first + second + ·) := by
  rw [Option.map_map]
  congr 1
  funext count
  exact (Nat.add_assoc first second count).symm

theorem textTail?_cons (b : UInt8) (tail : Bytes) :
    textTail? (b :: tail) =
      if b = backslash then (textTail? (tail.drop 1)).map (2 + ·)
      else if b = backtick then some 1
      else if b = dollar ∧ tail.head? = some openBrace then
        (substitutionTail? 0 (some openBrace) (tail.drop 1)).bind fun inner =>
          (textTail? (tail.drop (1 + inner))).map (2 + inner + ·)
      else (textTail? tail).map (1 + ·) := by
  rw [textTail?]
  congr
  cases substitutionTail? 0 (some openBrace) (tail.drop 1) <;> rfl

/-! ## The levels of the loop -/

/-- The plain reading from inside a template to its closing backtick. -/
def TemplateMode.tail? : TemplateMode → Bytes → Option Nat
  | .text, rest => textTail? rest
  | .escape, rest => (textTail? (rest.drop 1)).map (1 + ·)
  | .code braces prev, rest =>
    (substitutionTail? braces prev rest).bind fun inner =>
      (textTail? (rest.drop inner)).map (inner + ·)

/-- What the loop counts if the innermost template closes after `count?` bytes:
its substitution goes on there, and so do those around it.  If one of them does
not close, all bytes are counted, `total` in number. -/
def levelsTail (total : Nat) : List Nat → Option Nat → Nat → Bytes → Nat
  | _, none, _, _ => total
  | [], some count, read, _ => read + count
  | braces :: outer, some count, read, rest =>
    levelsTail total outer ((TemplateMode.resume braces).tail? (rest.drop count))
      (read + count) (rest.drop count)

theorem levelsTail_none (total : Nat) (outer : List Nat) (read : Nat) (rest : Bytes) :
    levelsTail total outer none read rest = total := by
  cases outer <;> rfl

theorem levelsTail_map (total : Nat) (outer : List Nat) (skipped : Nat) (count? : Option Nat)
    (read : Nat) (rest : Bytes) :
    levelsTail total outer (count?.map (skipped + ·)) read rest =
      levelsTail total outer count? (read + skipped) (rest.drop skipped) := by
  cases count? with
  | none => rw [Option.map_none, levelsTail_none, levelsTail_none]
  | some count =>
      cases outer with
      | nil => simp only [Option.map_some, levelsTail, Nat.add_assoc]
      | cons braces outer =>
          simp only [Option.map_some, levelsTail, Nat.add_assoc, List.drop_drop]

namespace TemplateMode

theorem tail?_nil (mode : TemplateMode) : mode.tail? [] = none := by
  cases mode <;> simp [tail?, textTail?, substitutionTail?]

theorem tail?_text_backslash (tail : Bytes) :
    text.tail? (backslash :: tail) = (escape.tail? tail).map (1 + ·) := by
  simp only [tail?]
  rw [textTail?_cons, if_pos rfl, map_add_map]

theorem tail?_text_backtick (tail : Bytes) : text.tail? (backtick :: tail) = some 1 := by
  simp only [tail?]
  rw [textTail?_cons, if_neg (by decide), if_pos rfl]

section

variable {b : UInt8} {tail : Bytes} (hbackslash : b ≠ backslash) (hbacktick : b ≠ backtick)

include hbackslash hbacktick

theorem tail?_text_open (hopens : b = dollar ∧ tail.head? = some openBrace) :
    text.tail? (b :: tail) = ((code 0 (some openBrace)).tail? (tail.drop 1)).map (2 + ·) := by
  simp only [tail?]
  rw [textTail?_cons, if_neg hbackslash, if_neg hbacktick, if_pos hopens, Option.map_bind]
  congr 1
  funext inner
  rw [Function.comp_apply, map_add_map, List.drop_drop]

theorem tail?_text_byte (hopens : ¬ (b = dollar ∧ tail.head? = some openBrace)) :
    text.tail? (b :: tail) = (text.tail? tail).map (1 + ·) := by
  simp only [tail?]
  rw [textTail?_cons, if_neg hbackslash, if_neg hbacktick, if_neg hopens]

end

section

variable {braces : Nat} {prev : Option UInt8}

/-- A substitution that goes on at a later byte. -/
theorem tail?_code_skip {braces' skipped : Nat} {prev' : Option UInt8} {rest : Bytes}
    (hskip : substitutionTail? braces prev rest =
      (substitutionTail? braces' prev' (rest.drop skipped)).map (skipped + ·)) :
    (code braces prev).tail? rest =
      ((code braces' prev').tail? (rest.drop skipped)).map (skipped + ·) := by
  simp only [tail?]
  rw [hskip, Option.bind_map, Option.map_bind]
  congr 1
  funext inner
  rw [Function.comp_apply, Function.comp_apply, map_add_map, List.drop_drop]

variable {b : UInt8} {tail : Bytes}

theorem tail?_code_template :
    (code braces prev).tail? (backtick :: tail) =
      (textTail? tail).bind fun inner =>
        ((resume braces).tail? (tail.drop inner)).map (1 + inner + ·) := by
  cases hinner : textTail? tail with
  | none =>
      simp only [tail?]
      rw [substitutionTail?, if_pos rfl, hinner]
      rfl
  | some inner =>
      have hdrop : (backtick :: tail).drop (1 + inner) = tail.drop inner := by
        rw [Nat.add_comm, List.drop_succ_cons]
      rw [Option.bind_some, ← hdrop]
      apply tail?_code_skip
      rw [substitutionTail?, if_pos rfl, hinner, hdrop]

theorem tail?_code_literal {literal : Literal} (hbacktick : b ≠ backtick)
    (hplain : Literal.plain? prev b tail = some literal) :
    (code braces prev).tail? (b :: tail) =
      ((code braces (literal.lastCode prev)).tail? (tail.drop literal.more)).map
        (literal.length + ·) := by
  apply tail?_code_skip
  rw [substitutionTail?, if_neg hbacktick, hplain]
  rfl

theorem afterCode_eq (hopen : ¬ (b = closeBrace ∧ braces = 0)) :
    afterCode braces prev b = code (bracesAfter b braces) (lastCodeAfter b prev) := by
  unfold afterCode bracesAfter
  split_ifs with hopenBrace hcloseBrace
  · subst hopenBrace
    rfl
  · subst hcloseBrace
    cases braces with
    | zero => exact absurd ⟨rfl, rfl⟩ hopen
    | succ braces => rfl
  · rfl

theorem tail?_code_byte (hbacktick : b ≠ backtick)
    (hplain : Literal.plain? prev b tail = none) :
    (code braces prev).tail? (b :: tail) =
      ((afterCode braces prev b).tail? tail).map (1 + ·) := by
  by_cases hcloses : b = closeBrace ∧ braces = 0
  · rcases hcloses with ⟨rfl, rfl⟩
    simp only [tail?]
    rw [substitutionTail?, if_neg hbacktick, hplain]
    rfl
  · rw [afterCode_eq hcloses]
    apply tail?_code_skip
    rw [substitutionTail?, if_neg hbacktick, hplain]
    simp only [if_neg hcloses, List.drop_succ_cons, List.drop_zero]

end

end TemplateMode

theorem total_of_drop {rest : Bytes} {skipped read total : Nat}
    (hskipped : skipped ≤ rest.length) (htotal : read + rest.length = total) :
    read + skipped + (rest.drop skipped).length = total := by
  rw [List.length_drop]
  omega

theorem total_of_cons {b : UInt8} {tail : Bytes} {read total : Nat}
    (htotal : read + (b :: tail).length = total) : read + 1 + tail.length = total :=
  total_of_drop (Nat.le_add_left 1 tail.length) htotal

/-- The loop counts what the plain reading counts, level after level. -/
theorem templateTail_eq_levelsTail {total : Nat} (mode : TemplateMode) (outer : List Nat)
    (read : Nat) (rest : Bytes) (htotal : read + rest.length = total) :
    templateTail mode outer read rest =
      levelsTail total outer (mode.tail? rest) read rest := by
  fun_induction templateTail mode outer read rest with
  | case1 mode outer =>
      rw [TemplateMode.tail?_nil, levelsTail_none]
      exact htotal
  -- after a backslash, and at one
  | case2 outer read b tail ih =>
      rw [ih (total_of_cons htotal)]
      exact (levelsTail_map total outer 1 (textTail? tail) read (b :: tail)).symm
  | case3 outer read tail ih =>
      rw [ih (total_of_cons htotal), TemplateMode.tail?_text_backslash, levelsTail_map]
      rfl
  -- a backtick closes the outermost template, or one inside a substitution
  | case4 read tail =>
      rw [TemplateMode.tail?_text_backtick]
      rfl
  | case5 read tail braces outer _ ih =>
      rw [ih (total_of_cons htotal), TemplateMode.tail?_text_backtick]
      rfl
  -- `${` opens a substitution
  | case6 outer read b tail hbackslash hbacktick hopens ih =>
      have hsome : 2 ≤ (b :: tail).length := by
        cases tail with
        | nil => simp at hopens
        | cons next tail => simp
      rw [ih (total_of_drop hsome htotal),
        TemplateMode.tail?_text_open hbackslash hbacktick hopens, levelsTail_map]
      rfl
  | case7 outer read b tail hbackslash hbacktick hopens ih =>
      rw [ih (total_of_cons htotal),
        TemplateMode.tail?_text_byte hbackslash hbacktick hopens, levelsTail_map]
      rfl
  -- inside a substitution: a template, another literal, a byte of code
  | case8 outer read tail braces prev ih =>
      rw [ih (total_of_cons htotal), TemplateMode.tail?_code_template]
      simp only [TemplateMode.tail?]
      cases textTail? tail with
      | none => rw [Option.bind_none, levelsTail_none, levelsTail_none]
      | some inner =>
          have hdrop : (backtick :: tail).drop (1 + inner) = tail.drop inner := by
            rw [Nat.add_comm, List.drop_succ_cons]
          rw [Option.bind_some, levelsTail_map, hdrop, ← Nat.add_assoc]
          rfl
  | case9 outer read b tail braces prev hbacktick literal hplain ih =>
      have hlength : literal.length ≤ (b :: tail).length :=
        Nat.succ_le_succ (Literal.plain?_asciiCut hplain).le_length
      rw [ih (total_of_drop hlength htotal),
        TemplateMode.tail?_code_literal hbacktick hplain, levelsTail_map]
      rfl
  | case10 outer read b tail braces prev hbacktick hplain ih =>
      rw [ih (total_of_cons htotal), TemplateMode.tail?_code_byte hbacktick hplain,
        levelsTail_map]
      rfl

/-- The loop reads every template as the plain reading does. -/
theorem openedAt?_eq_templateEnd {src : Bytes} {start : Nat}
    (hstart : src[start]? = some backtick) (prev : Option UInt8) :
    ∃ literal, Literal.openedAt? src start prev = some literal ∧
      literal.kind = .template ∧ start + literal.length = templateEnd src start := by
  rcases List.getElem?_eq_some_iff.mp hstart with ⟨hlt, hbyte⟩
  have hdrop : src.drop start = backtick :: src.drop (start + 1) := by
    rw [List.drop_eq_getElem_cons hlt, hbyte]
  have hopened : Literal.openedAt? src start prev =
      some ⟨.template, templateTail .text [] 0 (src.drop (start + 1))⟩ := by
    unfold Literal.openedAt? Literal.opened?
    rw [hdrop]
    rfl
  have hlevels := templateTail_eq_levelsTail .text [] 0 (src.drop (start + 1)) (Nat.zero_add _)
  refine ⟨_, hopened, rfl, ?_⟩
  unfold templateEnd Literal.length
  cases hcount : textTail? (src.drop (start + 1)) with
  | none =>
      simp only [TemplateMode.tail?, hcount, levelsTail, List.length_drop] at hlevels
      simp only [hlevels]
      omega
  | some count =>
      simp only [TemplateMode.tail?, hcount, levelsTail] at hlevels
      simp only [hlevels]
      omega

/-- A template in braces in a substitution, with a regex behind them, and a
substitution cut short after a backslash. -/
theorem openedAt?_eq_templateEnd_nested :
    (∃ literal,
      Literal.openedAt? (ofString "f(`$\x7b \x7ba: `\x7d`\x7d /`/ \x7d`)") 2 none =
        some literal ∧ literal.kind = .template ∧ 2 + literal.length = 21) ∧
    ∃ literal, Literal.openedAt? (ofString "`$\x7b `\x7d` \\") 0 none = some literal ∧
      literal.kind = .template ∧ 0 + literal.length = 9 := by
  have hnested : templateEnd (ofString "f(`$\x7b \x7ba: `\x7d`\x7d /`/ \x7d`)") 2 = 21 := by
    decide +kernel
  have hcut : templateEnd (ofString "`$\x7b `\x7d` \\") 0 = 9 := by
    decide +kernel
  rw [← hnested, ← hcut]
  exact ⟨openedAt?_eq_templateEnd (by decide) none, openedAt?_eq_templateEnd (by decide) none⟩

end LogSweep
