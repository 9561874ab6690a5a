import Mathlib.Data.List.TakeWhile
import LogSweep.Proofs.LiteralExtent
import LogSweep.Sweep

/-!
# How a call and its ending are spelled

What the scanners of a call accept, said by its bytes: the receiver, a dot, the
name of a method, white space and the parenthesis in front; blanks and at most
one semicolon behind the closing parenthesis; at most one line terminator.
-/

namespace LogSweep

open Byte Bytes

/-! ## Byte classes -/

theorem isWhitespace_cases {b : UInt8} (hb : isWhitespace b = true) :
    b = space ∨ b = tab ∨ b = newline ∨ b = formFeed ∨ b = carriageReturn := by
  simpa [isWhitespace, or_assoc] using hb

theorem isWord_of_isWhitespace {b : UInt8} (hb : isWhitespace b = true) :
    isWord b = false := by
  rcases isWhitespace_cases hb with rfl | rfl | rfl | rfl | rfl <;> decide

theorem ascii_of_isWhitespace {b : UInt8} (hb : isWhitespace b = true) :
    b < 0x80 := by
  rcases isWhitespace_cases hb with rfl | rfl | rfl | rfl | rfl <;> decide

theorem isBlank_cases {b : UInt8} (hb : isBlank b = true) :
    b = space ∨ b = tab := by
  simpa [isBlank] using hb

theorem ascii_of_isBlank {b : UInt8} (hb : isBlank b = true) : b < 0x80 := by
  rcases isBlank_cases hb with rfl | rfl <;> decide

theorem opened?_eq_none_of_isWord {b : UInt8} (hb : isWord b = true)
    (prev : Option UInt8) (tail : Bytes) :
    Literal.opened? prev b tail = none := by
  have hsolid : ∀ c, isWord c = false → b ≠ c := by
    rintro c hc rfl
    simp [hb] at hc
  have hbacktick := hsolid backtick (by decide)
  have hsingle := hsolid singleQuote (by decide)
  have hdouble := hsolid doubleQuote (by decide)
  have hslash := hsolid slash (by decide)
  simp [Literal.opened?, Literal.plain?, hbacktick, hsingle, hdouble, hslash]

theorem opened?_eq_none_of_isWhitespace {b : UInt8}
    (hb : isWhitespace b = true) (prev : Option UInt8) (tail : Bytes) :
    Literal.opened? prev b tail = none := by
  rcases isWhitespace_cases hb with rfl | rfl | rfl | rfl | rfl <;> rfl

theorem forall_mem_run {inClass : UInt8 → Bool} {b : UInt8} (hb : inClass b = true)
    (tail : Bytes) : ∀ c ∈ b :: tail.take (runLength inClass tail), inClass c = true := by
  rw [take_runLength]
  exact List.forall_mem_cons.mpr ⟨hb, fun c hc => List.mem_takeWhile_imp hc⟩

/-! ## In front of the parenthesis -/

theorem isWord_of_mem_receiver : ∀ b ∈ ofString receiver, isWord b = true := by
  decide +kernel

theorem isWord_of_mem_name (method : Method) :
    ∀ b ∈ ofString method.name, isWord b = true := by
  cases method <;> decide +kernel

theorem Method.ofBytes?_eq_some_iff {bytes : Bytes} {method : Method} :
    Method.ofBytes? bytes = some method ↔ bytes = ofString method.name := by
  constructor
  · intro hfind
    have hname := List.find?_some hfind
    exact (by simpa using hname : ofString method.name = bytes).symm
  · rintro rfl
    cases method <;> decide

theorem takeWhile_append_of_stop {inClass : UInt8 → Bool} {run rest : Bytes}
    {stop : UInt8} (hrun : ∀ b ∈ run, inClass b = true)
    (hstop : inClass stop = false) :
    (run ++ stop :: rest).takeWhile inClass = run := by
  rw [List.takeWhile_append_of_pos hrun]
  simp [hstop]

theorem takeWhile_isWord_name (method : Method) {gap : Bytes} (after : Bytes)
    (hgap : ∀ b ∈ gap, isWhitespace b = true) :
    (ofString method.name ++ (gap ++ openParen :: after)).takeWhile isWord =
      ofString method.name := by
  cases gap with
  | nil =>
      exact takeWhile_append_of_stop (isWord_of_mem_name method) (by decide)
  | cons first gap =>
      exact takeWhile_append_of_stop (isWord_of_mem_name method)
        (isWord_of_isWhitespace (hgap first (by simp)))

theorem calledMethod?_spelled (method : Method) {gap : Bytes} (after : Bytes)
    (hgap : ∀ b ∈ gap, isWhitespace b = true) :
    calledMethod? (dot :: ofString method.name ++ gap ++ openParen :: after) =
      some (method, (dot :: ofString method.name ++ gap).length) := by
  have hspace : (gap ++ openParen :: after).takeWhile isWhitespace = gap :=
    takeWhile_append_of_stop hgap (by decide)
  have hparen : (ofString method.name ++ (gap ++ openParen :: after)).drop
      ((ofString method.name).length + gap.length) = openParen :: after := by
    rw [← List.drop_drop, List.drop_left, List.drop_left]
  simp only [calledMethod?, List.cons_append, List.append_assoc,
    takeWhile_isWord_name method after hgap, List.drop_left, hspace, hparen]
  simp [Method.ofBytes?_eq_some_iff.mpr rfl]

theorem exists_spelled_of_calledMethod? {rest : Bytes} {method : Method}
    {before : Nat} (hcalled : calledMethod? rest = some (method, before)) :
    ∃ gap after, (∀ b ∈ gap, isWhitespace b = true) ∧
      rest = dot :: ofString method.name ++ gap ++ openParen :: after ∧
      before = (dot :: ofString method.name ++ gap).length := by
  cases rest with
  | nil =>
      simp [calledMethod?] at hcalled
  | cons b rest =>
      simp only [calledMethod?] at hcalled
      split_ifs at hcalled with hshape
      obtain ⟨rfl, hparen⟩ := hshape
      obtain ⟨found, hname, hpair⟩ := Option.map_eq_some_iff.mp hcalled
      simp only [Prod.mk.injEq] at hpair
      obtain ⟨rfl, rfl⟩ := hpair
      rw [Method.ofBytes?_eq_some_iff] at hname
      have hname' : rest.drop (rest.takeWhile isWord).length =
          rest.dropWhile isWord := drop_runLength isWord rest
      set afterName := rest.dropWhile isWord with hafterName
      have hgap : afterName.drop (afterName.takeWhile isWhitespace).length =
          afterName.dropWhile isWhitespace :=
        drop_runLength isWhitespace afterName
      rw [← List.drop_drop, hname', hgap] at hparen
      obtain ⟨after, hafter⟩ :
          ∃ after, afterName.dropWhile isWhitespace = openParen :: after := by
        cases hrest : afterName.dropWhile isWhitespace with
        | nil =>
            simp [hrest] at hparen
        | cons first after =>
            have hfirst : first = openParen := by simpa [hrest] using hparen
            exact ⟨after, by rw [hfirst]⟩
      refine ⟨afterName.takeWhile isWhitespace, after, ?_, ?_, ?_⟩
      · intro b hb
        exact List.mem_takeWhile_imp hb
      · rw [← hname, ← hafter, List.cons_append, List.cons_append,
          List.append_assoc, List.takeWhile_append_dropWhile, hafterName,
          List.takeWhile_append_dropWhile]
      · rw [hname', ← hname]
        simp only [List.cons_append, List.length_cons, List.length_append]

/-- The text after a receiver: a dot, the method's name, white space and the
opening parenthesis. -/
theorem calledMethod?_eq_some_iff {rest : Bytes} {method : Method}
    {before : Nat} :
    calledMethod? rest = some (method, before) ↔
      ∃ gap after, (∀ b ∈ gap, isWhitespace b = true) ∧
        rest = dot :: ofString method.name ++ gap ++ openParen :: after ∧
        before = (dot :: ofString method.name ++ gap).length := by
  constructor
  · exact exists_spelled_of_calledMethod?
  · rintro ⟨gap, after, hgap, rfl, rfl⟩
    exact calledMethod?_spelled method after hgap

/-! ## Behind the closing parenthesis -/

/-- What belongs to a statement behind its call: blanks, or a semicolon with
blanks on both sides. -/
def SpellsEnding (spelled : Bytes) : Prop :=
  (∀ b ∈ spelled, isBlank b = true) ∨
    ∃ blanks more, spelled = blanks ++ semicolon :: more ∧
      (∀ b ∈ blanks, isBlank b = true) ∧ ∀ b ∈ more, isBlank b = true

theorem SpellsEnding.ascii {spelled : Bytes} (hspelled : SpellsEnding spelled) :
    ∀ b ∈ spelled, b < 0x80 := by
  intro b hb
  rcases hspelled with hblank | ⟨blanks, more, rfl, hblanks, hmore⟩
  · exact ascii_of_isBlank (hblank b hb)
  · rcases List.mem_append.mp hb with hbefore | hlater
    · exact ascii_of_isBlank (hblanks b hbefore)
    · rcases List.mem_cons.mp hlater with rfl | hafter
      · decide
      · exact ascii_of_isBlank (hmore b hafter)

/-- The ending that is read is spelled as one, and the line ends behind it or
does not. -/
theorem Ending.read_spelled (rest : Bytes) :
    ∃ spelled after, rest = spelled ++ after ∧ SpellsEnding spelled ∧
      (Ending.read rest).length = spelled.length ∧
      (Ending.read rest).endsLine = atLineEnd after := by
  have hrun : ∀ bytes : Bytes, ∀ b ∈ bytes.takeWhile isBlank, isBlank b = true :=
    fun bytes b hb => List.mem_takeWhile_imp hb
  rw [Ending.read, drop_runLength]
  cases hafter : rest.dropWhile isBlank with
  | nil =>
      have hall : rest.takeWhile isBlank = rest := by
        simpa [hafter] using List.takeWhile_append_dropWhile (p := isBlank) (l := rest)
      refine ⟨rest, [], by simp, Or.inl (hall ▸ hrun rest), ?_, rfl⟩
      simp [runLength, hall]
  | cons b after =>
      have hrest : rest = rest.takeWhile isBlank ++ b :: after := by
        rw [← hafter, List.takeWhile_append_dropWhile]
      simp only
      split_ifs with hsemicolon hline
      · subst b
        refine ⟨rest.takeWhile isBlank ++ semicolon :: after.takeWhile isBlank,
          after.dropWhile isBlank, ?_, ?_, ?_, ?_⟩
        · rw [List.append_assoc, List.cons_append,
            List.takeWhile_append_dropWhile]
          exact hrest
        · exact Or.inr ⟨_, _, rfl, hrun rest, hrun after⟩
        · simp only [runLength, List.length_append, List.length_cons]
          omega
        · simp only [drop_runLength]
      · exact ⟨rest.takeWhile isBlank, b :: after, hrest, Or.inl (hrun rest),
          rfl, hline.symm⟩
      · refine ⟨rest.takeWhile isBlank, b :: after, hrest, Or.inl (hrun rest),
          rfl, ?_⟩
        simpa using hline

/-- The length of an ending: the blanks, and a semicolon with the blanks behind
it if there is one. -/
theorem Ending.read_length (rest : Bytes) :
    (∃ further, rest.drop (runLength isBlank rest) = semicolon :: further ∧
        (Ending.read rest).length =
          runLength isBlank rest + 1 + runLength isBlank further) ∨
      (rest.drop (runLength isBlank rest)).head? ≠ some semicolon ∧
        (Ending.read rest).length = runLength isBlank rest := by
  rw [Ending.read]
  cases hafter : rest.drop (runLength isBlank rest) with
  | nil =>
      exact Or.inr ⟨by simp, rfl⟩
  | cons b further =>
      simp only
      split_ifs with hsemicolon hline
      · subst b
        exact Or.inl ⟨further, rfl, rfl⟩
      · exact Or.inr ⟨by simpa using hsemicolon, rfl⟩
      · exact Or.inr ⟨by simpa using hsemicolon, rfl⟩

theorem terminatorLength_spelled (rest : Bytes) :
    ∃ spelled after, rest = spelled ++ after ∧
      terminatorLength rest = spelled.length ∧
      (spelled = [] ∨ spelled = [newline] ∨
        spelled = [carriageReturn, newline]) := by
  cases rest with
  | nil =>
      exact ⟨[], [], rfl, rfl, Or.inl rfl⟩
  | cons b rest =>
      rw [terminatorLength]
      split_ifs with hnewline hreturn
      · subst b
        exact ⟨[newline], rest, rfl, rfl, Or.inr (Or.inl rfl)⟩
      · obtain ⟨rfl, hnext⟩ := hreturn
        cases rest with
        | nil =>
            simp at hnext
        | cons next rest =>
            have hfeed : next = newline := by simpa using hnext
            subst next
            exact ⟨[carriageReturn, newline], rest, rfl, rfl,
              Or.inr (Or.inr rfl)⟩
      · exact ⟨[], b :: rest, rfl, rfl, Or.inl rfl⟩

theorem judge_eq_ok_iff {last : Option UInt8} {role : Role} {onNewLine : Bool}
    {rest : Bytes} {ending : Ending} :
    judge last role onNewLine rest = .ok ending ↔
      role ≠ .beforeBody ∧ startsStatement last role onNewLine = true ∧
        (Ending.read rest).complete = true ∧ Ending.read rest = ending := by
  unfold judge
  split_ifs with hbody hstart hcomplete <;> simp_all

end LogSweep
