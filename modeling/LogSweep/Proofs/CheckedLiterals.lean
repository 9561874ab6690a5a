import LogSweep.CheckedScan
import LogSweep.Proofs.LiteralExtent

/-!
# Literals by offsets

Each scanner over offsets, run from an offset within the text, meets no fault, and
it stops where the scanner over the rest of the text does.  The count of bytes
read, which the latter carries along, is taken as the offset itself.
-/

namespace LogSweep

open Byte Bytes

namespace Bytes

/-! ## Bytes and parts -/

section

variable {src : Bytes} {i : Nat} {b : UInt8} {tail : Bytes}

theorem drop_eq_cons_iff :
    src.drop i = b :: tail ↔ src[i]? = some b ∧ src.drop (i + 1) = tail := by
  constructor
  · intro hrest
    constructor
    · rw [← List.head?_drop, hrest, List.head?_cons]
    · rw [← List.drop_drop, hrest, List.drop_one, List.tail_cons]
  · rintro ⟨hbyte, rfl⟩
    exact drop_eq_cons_of_getElem? hbyte

theorem lt_length_of_drop (hrest : src.drop i = b :: tail) : i < src.length :=
  (List.getElem?_eq_some_iff.mp (drop_eq_cons_iff.mp hrest).1).1

theorem byteAt_of_drop (hrest : src.drop i = b :: tail) : src.byteAt i = .ok b := by
  rw [byteAt, (drop_eq_cons_iff.mp hrest).1]

theorem slice_of_le {start stop : Nat} (hle : start ≤ stop) (hstop : stop ≤ src.length) :
    src.slice start stop = .ok ((src.drop start).take (stop - start)) := by
  have hwithin : stop - start ≤ (src.drop start).length := by
    rw [List.length_drop]
    omega
  rw [slice, distance, if_pos hle, suffixFrom_of_le (hle.trans hstop)]
  simp only [bind, Except.bind, suffixFrom_of_le hwithin]
  rfl

theorem cutOut_of_checkCut {start stop : Nat} (hle : start ≤ stop)
    (hstart : src.checkCut start = .ok ()) (hstop : src.checkCut stop = .ok ()) :
    src.cutOut start stop = .ok ((src.drop start).take (stop - start)) := by
  rw [cutOut, hstart, hstop]
  exact slice_of_le hle (checkCut_eq_ok_iff.mp hstop).1

theorem truncate_of_checkCut {length : Nat} (hcut : src.checkCut length = .ok ()) :
    src.truncate length = .ok (src.take length) := by
  rw [truncate, if_pos (checkCut_eq_ok_iff.mp hcut).1, hcut]
  rfl

end

/-! ## Strings and regexes -/

section

variable {src : Bytes} {quote : UInt8} {i : Nat} {b : UInt8} {tail : Bytes}

theorem stringFrom_of_length_le (hle : src.length ≤ i) :
    src.stringFrom quote i = .ok src.length := by
  rw [stringFrom, if_neg (Nat.not_lt.mpr hle)]
  rfl

theorem stringFrom_of_drop (hrest : src.drop i = b :: tail) :
    src.stringFrom quote i =
      if b = backslash then src.stringFrom quote (i + 2)
      else if b = newline then .ok i
      else if b = quote then .ok (i + 1)
      else src.stringFrom quote (i + 1) := by
  conv => lhs; rw [stringFrom]
  rw [if_pos (lt_length_of_drop hrest), byteAt_of_drop hrest]
  rfl

/-- Behind `start`, where `read` bytes of a string are read, both readers go on to
the same place. -/
theorem stringFrom_eq (src : Bytes) (quote : UInt8) (start read : Nat)
    (hle : start + read ≤ src.length) :
    src.stringFrom quote (start + read) =
      .ok (start + stringTail quote false read (src.drop (start + read))) := by
  induction hleft : src.length - (start + read) using Nat.strong_induction_on
    generalizing read with
  | _ left ih =>
      cases hrest : src.drop (start + read) with
      | nil =>
          have hend := List.drop_eq_nil_iff.mp hrest
          rw [stringFrom_of_length_le hend, stringTail, le_antisymm hle hend]
      | cons b tail =>
          have hlt := lt_length_of_drop hrest
          rcases drop_eq_cons_iff.mp hrest with ⟨-, htail⟩
          rw [stringFrom_of_drop hrest, stringTail, if_neg Bool.false_ne_true]
          split_ifs with hbackslash hnewline hquote
          · -- the escape steps over one byte, or over the end
            cases tail with
            | nil =>
                have hend := List.drop_eq_nil_iff.mp htail
                rw [stringFrom_of_length_le (Nat.le_succ_of_le hend), stringTail]
                exact congrArg _ (le_antisymm hend hlt)
            | cons c beyond =>
                have hstep := ih _ (by omega) (read + 2) (lt_length_of_drop htail) rfl
                rw [← Nat.add_assoc, (drop_eq_cons_iff.mp htail).2] at hstep
                rw [hstep, stringTail, if_pos rfl]
          · rfl
          · rfl
          · have hstep := ih _ (by omega) (read + 1) hlt rfl
            rw [← Nat.add_assoc, htail] at hstep
            exact hstep

theorem stringEnd_of_drop (hrest : src.drop i = b :: tail) :
    src.stringEnd i = .ok (i + 1 + stringTail b false 0 tail) := by
  rw [stringEnd, byteAt_of_drop hrest, ← (drop_eq_cons_iff.mp hrest).2]
  exact stringFrom_eq src b (i + 1) 0 (lt_length_of_drop hrest)

theorem regexFrom?_of_length_le {inClass : Bool} (hle : src.length ≤ i) :
    src.regexFrom? inClass i = .ok none := by
  rw [regexFrom?, if_neg (Nat.not_lt.mpr hle)]
  rfl

theorem regexFrom?_of_drop {inClass : Bool} (hrest : src.drop i = b :: tail) :
    src.regexFrom? inClass i =
      if b = backslash then src.regexFrom? inClass (i + 2)
      else if b = newline ∨ b = carriageReturn then .ok none
      else if b = slash ∧ inClass = false then .ok (some (i + 1 + runLength isWord tail))
      else src.regexFrom? (b == openBracket || (inClass && b != closeBracket)) (i + 1) := by
  have hlt := lt_length_of_drop hrest
  have hflags : src.wordEnd (i + 1) = .ok (i + 1 + runLength isWord tail) := by
    rw [wordEnd, runEnd_of_le hlt, (drop_eq_cons_iff.mp hrest).2]
  conv => lhs; rw [regexFrom?]
  rw [if_pos hlt, byteAt_of_drop hrest, hflags]
  rfl

theorem regexFrom?_eq (src : Bytes) (inClass : Bool) (start read : Nat)
    (hle : start + read ≤ src.length) :
    src.regexFrom? inClass (start + read) =
      .ok ((regexTail? inClass false read (src.drop (start + read))).map (start + ·)) := by
  induction hleft : src.length - (start + read) using Nat.strong_induction_on
    generalizing inClass read with
  | _ left ih =>
      cases hrest : src.drop (start + read) with
      | nil =>
          rw [regexFrom?_of_length_le (List.drop_eq_nil_iff.mp hrest)]
          rfl
      | cons b tail =>
          have hlt := lt_length_of_drop hrest
          rcases drop_eq_cons_iff.mp hrest with ⟨-, htail⟩
          rw [regexFrom?_of_drop hrest, regexTail?, if_neg Bool.false_ne_true]
          split_ifs with hbackslash hline hclosing
          · cases tail with
            | nil =>
                have hend := List.drop_eq_nil_iff.mp htail
                rw [regexFrom?_of_length_le (Nat.le_succ_of_le hend)]
                rfl
            | cons c beyond =>
                have hstep := ih _ (by omega) inClass (read + 2) (lt_length_of_drop htail) rfl
                rw [← Nat.add_assoc, (drop_eq_cons_iff.mp htail).2] at hstep
                rw [hstep, regexTail?, if_pos rfl]
          · rfl
          · rw [Option.map_some, ← Nat.add_assoc, ← Nat.add_assoc]
          · have hstep := ih _ (by omega) (b == openBracket || (inClass && b != closeBracket))
              (read + 1) hlt rfl
            rw [← Nat.add_assoc, htail] at hstep
            exact hstep

/-! ## Comments -/

theorem blockCommentTail_add (skipped read : Nat) (rest : Bytes) :
    blockCommentTail (skipped + read) rest = skipped + blockCommentTail read rest := by
  induction rest generalizing read with
  | nil => rfl
  | cons b rest ih =>
      rw [blockCommentTail, blockCommentTail, Nat.add_assoc, Nat.add_assoc]
      split_ifs
      · rfl
      · exact ih (read + 1)

theorem lineCommentEnd_of_drop (hrest : src.drop i = slash :: tail) :
    src.lineCommentEnd i = .ok (i + (runLength (· != newline) tail + 1)) := by
  rw [lineCommentEnd, runEnd_of_le (lt_length_of_drop hrest).le, hrest]
  rfl

theorem blockCommentEnd_of_drop {rest : Bytes} (hrest : src.drop i = slash :: b :: rest) :
    src.blockCommentEnd i = .ok (i + (blockCommentTail 1 rest + 1)) := by
  rcases drop_eq_cons_iff.mp hrest with ⟨-, htail⟩
  rcases drop_eq_cons_iff.mp htail with ⟨-, hbeyond⟩
  have hcount : blockCommentTail 1 rest = 1 + blockCommentTail 0 rest :=
    blockCommentTail_add 1 0 rest
  rw [blockCommentEnd, suffixFrom_of_le (lt_length_of_drop htail), hbeyond, hcount]
  show Except.ok _ = Except.ok _
  congr 1
  omega

end

end Bytes

/-! ## All but templates -/

/-- Where a literal lies that starts at `start`. -/
def Literal.spanFrom (literal : Literal) (start : Nat) : LiteralSpan :=
  ⟨literal.kind, start + literal.length⟩

theorem Literal.lt_spanFrom_stop (literal : Literal) (start : Nat) :
    start < (literal.spanFrom start).stop :=
  Nat.lt_add_of_pos_right (Nat.succ_pos _)

namespace Bytes

section

variable {src : Bytes} {i : Nat} {b : UInt8} {tail : Bytes} {prev : Option UInt8}

theorem slashAt?_of_drop (hrest : src.drop i = slash :: tail) :
    src.slashAt? i prev = .ok ((Literal.bySlash? prev tail).map (·.spanFrom i)) := by
  rcases drop_eq_cons_iff.mp hrest with ⟨-, htail⟩
  have hregex : src.regexFrom? false (i + 1) =
      .ok ((regexTail? false false 0 tail).map (i + 1 + ·)) := by
    rw [← htail]
    exact regexFrom?_eq src false (i + 1) 0 (lt_length_of_drop hrest)
  cases tail with
  | nil =>
      have hnone : src[i + 1]? = none := List.getElem?_eq_none (List.drop_eq_nil_iff.mp htail)
      rw [slashAt?, hnone, if_neg (by simp), if_neg (by simp), hregex]
      split_ifs <;> rfl
  | cons b rest =>
      rcases drop_eq_cons_iff.mp htail with ⟨hbyte, -⟩
      rw [slashAt?, hbyte, Literal.bySlash?]
      simp only [Option.some.injEq]
      split_ifs with hline hblock hadmits
      · rw [lineCommentEnd_of_drop hrest]
        rfl
      · rw [blockCommentEnd_of_drop hrest]
        rfl
      · rw [hregex]
        show Except.ok _ = Except.ok _
        rw [Option.map_map, Option.map_map]
        congr 2
        funext more
        simp only [Function.comp_apply, Literal.spanFrom, Literal.length]
        congr 1
        omega
      · rfl

theorem plainAt?_of_drop (hrest : src.drop i = b :: tail) :
    src.plainAt? i prev = .ok ((Literal.plain? prev b tail).map (·.spanFrom i)) := by
  rw [plainAt?, (drop_eq_cons_iff.mp hrest).1, Literal.plain?]
  simp only
  split_ifs with hquote hslash
  · rw [stringEnd_of_drop hrest]
    show Except.ok _ = Except.ok _
    simp only [Option.map_some, Literal.spanFrom, Literal.length]
    congr 3
    omega
  · subst b
    exact slashAt?_of_drop hrest
  · rfl

/-! ## Templates -/

/-- The levels around a template inside substitutions with these braces open. -/
def levelsAround (outer : List Nat) : List TemplateLevel :=
  outer.flatMap fun braces => [.code braces, .text]

theorem templateFrom_nil : src.templateFrom [] prev i = .ok (min i src.length) := by
  rw [templateFrom]
  rfl

theorem templateFrom_of_length_le {levels : List TemplateLevel} (hle : src.length ≤ i) :
    src.templateFrom levels prev i = .ok src.length := by
  cases levels with
  | nil => rw [templateFrom_nil, min_eq_right hle]
  | cons level around =>
      rw [templateFrom, if_neg (Nat.not_lt.mpr hle), min_eq_right hle]
      rfl

theorem templateFrom_text_of_drop {around : List TemplateLevel} (hrest : src.drop i = b :: tail) :
    src.templateFrom (.text :: around) prev i =
      if b = backslash then src.templateFrom (.text :: around) prev (i + 2)
      else if b = backtick then src.templateFrom around (some valueByte) (i + 1)
      else if b = dollar ∧ src[i + 1]? = some openBrace then
        src.templateFrom (.code 0 :: .text :: around) (some openBrace) (i + 2)
      else src.templateFrom (.text :: around) prev (i + 1) := by
  conv => lhs; rw [templateFrom]
  simp only
  rw [if_pos (lt_length_of_drop hrest), byteAt_of_drop hrest]
  rfl

theorem templateFrom_code_of_drop {braces : Nat} {around : List TemplateLevel}
    (hrest : src.drop i = b :: tail) :
    src.templateFrom (.code braces :: around) prev i =
      if b = backtick then src.templateFrom (.text :: .code braces :: around) prev (i + 1)
      else
        match Literal.plain? prev b tail with
        | some literal =>
          src.templateFrom (.code braces :: around) (literal.lastCode prev) (i + literal.length)
        | none =>
          TemplateLevel.afterCode braces around b >>= fun levels =>
            src.templateFrom levels (lastCodeAfter b prev) (i + 1) := by
  conv => lhs; rw [templateFrom]
  simp only
  rw [if_pos (lt_length_of_drop hrest), byteAt_of_drop hrest, plainAt?_of_drop hrest]
  cases hopened : Literal.plain? prev b tail with
  | none => rfl
  | some literal =>
      simp only [bind, Except.bind, Option.map_some, if_pos (literal.lt_spanFrom_stop i)]
      rfl

/-- Behind `start`, where `read` bytes of a template are read, both readers go on to
the same place: in its text, and in a substitution. -/
structure ReadsTemplateAlike (src : Bytes) (start read : Nat) (outer : List Nat) : Prop where
  text :
    ∀ prev, src.templateFrom (.text :: levelsAround outer) prev (start + read) =
      .ok (start + templateTail .text outer read (src.drop (start + read)))
  code :
    ∀ braces prev,
      src.templateFrom (.code braces :: .text :: levelsAround outer) prev (start + read) =
        .ok (start + templateTail (.code braces prev) outer read (src.drop (start + read)))

theorem readsTemplateAlike_of_nil {start read : Nat} (outer : List Nat)
    (hle : start + read ≤ src.length) (hrest : src.drop (start + read) = []) :
    ReadsTemplateAlike src start read outer := by
  have hend := List.drop_eq_nil_iff.mp hrest
  have hlength : src.length = start + read := le_antisymm hend hle
  constructor
  · intro prev
    rw [templateFrom_of_length_le hend, hrest, templateTail, hlength]
  · intro braces prev
    rw [templateFrom_of_length_le hend, hrest, templateTail, hlength]

section

variable {start read : Nat} (outer : List Nat) (hrest : src.drop (start + read) = b :: tail)
  (hlater : ∀ skipped outer, 0 < skipped → start + read + skipped ≤ src.length →
    ReadsTemplateAlike src start (read + skipped) outer)

include hrest hlater

theorem templateFrom_text_eq (prev : Option UInt8) :
    src.templateFrom (.text :: levelsAround outer) prev (start + read) =
      .ok (start + templateTail .text outer read (b :: tail)) := by
  have hlt := lt_length_of_drop hrest
  rcases drop_eq_cons_iff.mp hrest with ⟨-, htail⟩
  have hhead : src[start + read + 1]? = tail.head? := by
    rw [← List.head?_drop, htail]
  rw [templateFrom_text_of_drop hrest, templateTail_text, hhead]
  split_ifs with hbackslash hbacktick hopens
  · cases tail with
    | nil =>
        have hend := List.drop_eq_nil_iff.mp htail
        rw [templateFrom_of_length_le (Nat.le_succ_of_le hend), templateTail]
        exact congrArg _ (le_antisymm hend hlt)
    | cons c beyond =>
        have hstep := (hlater 2 outer (by decide) (lt_length_of_drop htail)).text prev
        rw [← Nat.add_assoc, (drop_eq_cons_iff.mp htail).2] at hstep
        rw [hstep, templateTail]
  · -- the outermost template ends, or one inside a substitution
    cases outer with
    | nil =>
        show src.templateFrom [] _ _ = _
        rw [templateFrom_nil, min_eq_left hlt]
        rfl
    | cons braces outer =>
        have hstep := (hlater 1 outer (by decide) hlt).code braces (some valueByte)
        rw [← Nat.add_assoc, htail] at hstep
        exact hstep
  · rcases List.head?_eq_some_iff.mp hopens.2 with ⟨beyond, rfl⟩
    have hstep := (hlater 2 outer (by decide) (lt_length_of_drop htail)).code 0 (some openBrace)
    rw [← Nat.add_assoc, (drop_eq_cons_iff.mp htail).2] at hstep
    exact hstep
  · have hstep := (hlater 1 outer (by decide) hlt).text prev
    rw [← Nat.add_assoc, htail] at hstep
    exact hstep

theorem templateFrom_afterCode_eq (braces : Nat) (prev : Option UInt8) :
    (TemplateLevel.afterCode braces (.text :: levelsAround outer) b >>= fun levels =>
        src.templateFrom levels (lastCodeAfter b prev) (start + read + 1)) =
      .ok (start + templateTail (.afterCode braces prev b) outer (read + 1) tail) := by
  have hlt := lt_length_of_drop hrest
  have hnext := hlater 1 outer (by decide) hlt
  have htext := hnext.text (lastCodeAfter b prev)
  have hcode := fun braces => hnext.code braces (lastCodeAfter b prev)
  rw [← Nat.add_assoc, (drop_eq_cons_iff.mp hrest).2] at htext
  simp only [← Nat.add_assoc, (drop_eq_cons_iff.mp hrest).2] at hcode
  rw [TemplateLevel.afterCode, TemplateMode.afterCode.eq_def]
  split_ifs with hopen hclose hpositive
  · subst b
    exact hcode (braces + 1)
  · subst b
    cases braces with
    | zero => cases hpositive
    | succ braces => exact hcode braces
  · obtain rfl : braces = 0 := Nat.eq_zero_of_not_pos hpositive
    exact htext
  · exact hcode braces

theorem templateFrom_code_eq (braces : Nat) (prev : Option UInt8) :
    src.templateFrom (.code braces :: .text :: levelsAround outer) prev (start + read) =
      .ok (start + templateTail (.code braces prev) outer read (b :: tail)) := by
  have hlt := lt_length_of_drop hrest
  rcases drop_eq_cons_iff.mp hrest with ⟨-, htail⟩
  rw [templateFrom_code_of_drop hrest, templateTail]
  split_ifs with hbacktick
  · have hstep := (hlater 1 (braces :: outer) (by decide) hlt).text prev
    rw [← Nat.add_assoc, htail] at hstep
    exact hstep
  · cases hopened : Literal.plain? prev b tail with
    | none => exact templateFrom_afterCode_eq outer hrest hlater braces prev
    | some literal =>
        have hmore := (Literal.plain?_asciiCut hopened).le_length
        have hwithin : start + read + literal.length ≤ src.length := by
          rw [← htail, List.length_drop] at hmore
          simp only [Literal.length]
          omega
        have hstep := (hlater literal.length outer (Nat.succ_pos _) hwithin).code braces
          (literal.lastCode prev)
        rw [← Nat.add_assoc, ← List.drop_drop, hrest, Literal.length, List.drop_succ_cons] at hstep
        exact hstep

end

theorem readsTemplateAlike (src : Bytes) (start read : Nat) (outer : List Nat)
    (hle : start + read ≤ src.length) : ReadsTemplateAlike src start read outer := by
  induction hleft : src.length - (start + read) using Nat.strong_induction_on
    generalizing read outer with
  | _ left ih =>
      cases hrest : src.drop (start + read) with
      | nil => exact readsTemplateAlike_of_nil outer hle hrest
      | cons b tail =>
          have hlater : ∀ skipped outer, 0 < skipped → start + read + skipped ≤ src.length →
              ReadsTemplateAlike src start (read + skipped) outer := by
            intro skipped outer hskipped hwithin
            exact ih _ (by omega) (read + skipped) outer (by omega) rfl
          constructor
          · rw [hrest]
            exact templateFrom_text_eq outer hrest hlater
          · rw [hrest]
            exact templateFrom_code_eq outer hrest hlater

/-! ## Every literal -/

/-- At an offset within the text no look for a literal meets a fault, and it finds
the one that the rest of the text starts with. -/
theorem literalAt?_of_drop (hrest : src.drop i = b :: tail) :
    src.literalAt? i prev = .ok ((Literal.opened? prev b tail).map (·.spanFrom i)) := by
  rcases drop_eq_cons_iff.mp hrest with ⟨hbyte, htail⟩
  rw [literalAt?, hbyte, Literal.opened?]
  simp only [Option.some.injEq]
  split_ifs with hbacktick
  · have htemplate := (readsTemplateAlike src (i + 1) 0 [] (lt_length_of_drop hrest)).text none
    rw [Nat.add_zero, htail] at htemplate
    rw [show ([.text] : List TemplateLevel) = .text :: levelsAround [] from rfl, htemplate]
    show Except.ok _ = Except.ok _
    simp only [Option.map_some, Literal.spanFrom, Literal.length]
    congr 3
    omega
  · exact plainAt?_of_drop hrest

end

end Bytes
end LogSweep
