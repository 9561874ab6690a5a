import LogSweep.Proofs.KeptNames

/-!
# Cleaning up twice

Deleting a statement can bring tokens together that are a call only then, and
it can change where a parenthesis that stays is closed.  So a text that was
cleaned up may hold a statement to delete again.  Unless it does, cleaning up
once more leaves it as it is; if it does, the text gets strictly shorter.
-/

namespace LogSweep

open Byte Bytes SweepState

/-! ## What a sweep leaves to delete -/

/-- The sweep of `src` meets a call that is a statement of its own. -/
def HoldsStatement (src : Bytes) : Prop :=
  ∃ state rest method opening closing ending, Reaches src state rest ∧
    state.MeetsCall rest method opening ∧
    closingFrom src opening openParen closeParen = .found closing ∧
    judge state.last state.role state.onNewLine (src.drop (closing + 1)) =
      .ok ending

/-- A call is spelled out somewhere, be it in code or not. -/
def SpellsCall (src : Bytes) : Prop :=
  ∃ before method gap after, (∀ b ∈ gap, isWhitespace b = true) ∧
    src = before ++ (ofString receiver ++
      (dot :: ofString (Method.name method) ++ gap ++ openParen :: after))

theorem SpellsCall.exists_namesMethodAt {src : Bytes} (hspells : SpellsCall src) :
    ∃ x, NamesMethodAt src x := by
  rcases hspells with ⟨before, method, gap, after, hgap, rfl⟩
  refine ⟨before.length, method, gap ++ openParen :: after, ?_, fun b hb => ?_⟩
  · rw [List.drop_left, ofString_display]
    simp
  · cases gap with
    | nil => exact .inr (Option.some.inj hb).symm
    | cons first gap => exact .inl (Option.some.inj hb ▸ hgap first List.mem_cons_self)

theorem HoldsStatement.spellsCall {src : Bytes}
    (hholds : HoldsStatement src) : SpellsCall src := by
  obtain ⟨state, rest, method, _, _, _, hreach, hcall, -, -⟩ := hholds
  obtain ⟨gap, after, hgap, hspelled, -⟩ := hcall.spelled
  exact ⟨_, method, gap, after, hgap, hspelled ▸ hreach.src_eq⟩

namespace SweepState

theorem next_of_holds {src tail : Bytes} {state : SweepState} {b : UInt8}
    {method : Method} {opening closing : Nat} {ending : Ending}
    (hrest : src.drop state.offset = b :: tail)
    (hcall : state.MeetsCall (b :: tail) method opening)
    (hfound : closingFrom src opening openParen closeParen = .found closing)
    (hjudge : judge state.last state.role state.onNewLine
      (src.drop (closing + 1)) = .ok ending) :
    ∃ terminator more, state.next (.ofText src) b tail =
      .ok (.removed (state.callHere method) ending.endsLine terminator,
        more) := by
  obtain ⟨-, hword, -⟩ := receiver_of_meetsCall hcall
  exact ⟨_, _, (NextSegment.removed hword hcall hfound hjudge).next_eq hrest⟩

theorem Reaches.holdsStatement {src rest : Bytes} {final : SweepState}
    (hreach : Reaches src final rest)
    (hsome : deletedStatements final.segments.toList ≠ []) :
    HoldsStatement src := by
  obtain ⟨statement, hmem⟩ := List.exists_mem_of_ne_nil _ hsome
  obtain ⟨before, segment, after, hsplit, hstatement, -⟩ :=
    hreach.exists_deletesStatement hmem
  obtain ⟨call, endsLine, terminator, hkind, -⟩ :=
    Segment.exists_kind_of_statement? hstatement
  obtain ⟨earlier, b, tail, more, hearlier, -, -, hnext, -⟩ :=
    hreach.cut_at hsplit
  rw [hkind] at hnext
  cases hnext with
  | @removed method opening closing ending hword hcall hfound hjudge =>
      exact ⟨earlier, b :: tail, method, opening, closing, ending, hearlier,
        hcall, hfound, hjudge⟩

theorem deletedStatements_ne_nil {text : String} {final : SweepState}
    (hsweep : sweep (ofString text) = .ok final)
    (hholds : HoldsStatement (ofString text)) :
    deletedStatements final.segments.toList ≠ [] := by
  obtain ⟨state, rest, method, opening, closing, ending, hmet, hcall, hfound,
    hjudge⟩ := hholds
  cases rest with
  | nil =>
      obtain ⟨gap, after, -, hspelled, -⟩ := hcall.spelled
      exact absurd hspelled (by simp)
  | cons b tail =>
      have hrest := hmet.drop_offset.1
      obtain ⟨terminator, more, hnext⟩ :=
        next_of_holds hrest hcall hfound hjudge
      have hcut := hmet.readsText.checkCut hrest (hmet.nextSegment hnext)
      obtain ⟨later, hlater⟩ := hmet.exists_later_of_step hsweep hnext hcut
      rw [hlater, deletedStatements, List.filterMap_append]
      simp [Segment.statement?]

end SweepState

theorem removed_ne_nil_iff {text : String} {report : Report}
    (hreport : sweepText text = .ok report) :
    report.removed ≠ [] ↔ HoldsStatement (ofString text) := by
  obtain ⟨final, report', hsweep, hreach, hreport', -, hfindings⟩ :=
    exists_sweepText text
  obtain rfl := Except.ok.inj (hreport.symm.trans hreport')
  have hremoved : report.removed =
      (deletedStatements final.segments.toList).map DeletedStatement.call := by
    rw [map_call_deletedStatements, Report.removed, hfindings]
  rw [hremoved, Ne, List.map_eq_nil_iff]
  exact ⟨hreach.holdsStatement, deletedStatements_ne_nil hsweep⟩

/-! ## How a text shrinks -/

theorem Bytes.length_without_lt {bytes : Bytes} {deleted : Finset Nat} {x : Nat}
    (hx : x ∈ deleted) (hlt : x < bytes.length) :
    (bytes.without deleted).length < bytes.length := by
  rw [Bytes.without, List.length_map]
  calc (bytes.zipIdx.filter fun place => place.2 ∉ deleted).length
      < bytes.zipIdx.length := by
        rw [List.length_filter_lt_length_iff_exists]
        have hmem : (bytes[x], x) ∈ bytes.zipIdx :=
          List.mk_mem_zipIdx_iff_getElem?.mpr (by simp [hlt])
        exact ⟨(bytes[x], x), hmem, by simpa using hx⟩
    _ = bytes.length := List.length_zipIdx

theorem Deletion.exists_mem {src : Bytes} {statements : List DeletedStatement}
    {deleted : Finset Nat} (hdeletion : Deletion src statements deleted)
    (hsome : statements ≠ []) : ∃ x ∈ deleted, x < src.length := by
  obtain ⟨statement, hmem⟩ := List.exists_mem_of_ne_nil _ hsome
  obtain ⟨opening, closing, hspelled⟩ := hdeletion.spelled statement hmem
  have hfirst := (List.getElem?_eq_some_iff.mp hspelled.getElem?_start).1
  exact ⟨statement.call.start, (hdeletion.mem_iff _).mpr
    (Or.inl ⟨statement, hmem, le_rfl, hspelled.start_lt_stop⟩), hfirst⟩

theorem length_lt_of_removed_ne_nil {text : String} {report : Report}
    (hreport : sweepText text = .ok report) (hsome : report.removed ≠ []) :
    (ofString report.text).length < (ofString text).length := by
  obtain ⟨report', statements, deleted, hreport', hremoved, hdeletion, hleft⟩ :=
    exists_deletion text
  obtain rfl := Except.ok.inj (hreport.symm.trans hreport')
  have hstatements : statements ≠ [] := by
    rintro rfl
    exact hsome hremoved.symm
  obtain ⟨x, hx, hlt⟩ := hdeletion.exists_mem hstatements
  rw [hleft]
  exact length_without_lt hx hlt

/-! ## The second run -/

theorem exists_cleanUp (text : String) :
    ∃ swept, sweepText text = .ok swept ∧
      cleanUp text =
        .ok { swept with text := squeezeBlankLines swept.text } ∧
      cleanText text = .ok (squeezeBlankLines swept.text) := by
  obtain ⟨-, swept, -, -, hswept, -, -⟩ := exists_sweepText text
  refine ⟨swept, hswept, ?_, ?_⟩
  · rw [cleanUp, hswept]
    rfl
  · rw [cleanText, cleanUp, hswept]
    rfl

section

variable {text : String} {swept : Report}

/-- A text is left as it is unless it holds a statement to delete or repeats a
blank line. -/
theorem squeezed_eq_iff (hswept : sweepText text = .ok swept) :
    squeezeBlankLines swept.text = text ↔
      swept.removed = [] ∧ ¬ RepeatsBlankLine text := by
  constructor
  · intro hsame
    have hnone : swept.removed = [] := by
      by_contra hsome
      have hshorter := (length_squeezeBlankLines_le swept.text).trans_lt
        (length_lt_of_removed_ne_nil hswept hsome)
      rw [hsame] at hshorter
      exact lt_irrefl _ hshorter
    rw [text_eq_of_removed_eq_nil hswept hnone] at hsame
    exact ⟨hnone, squeezeBlankLines_eq_self_iff.mp hsame⟩
  · rintro ⟨hnone, hnever⟩
    rw [text_eq_of_removed_eq_nil hswept hnone]
    exact squeezeBlankLines_eq_self hnever

/-- Every other text gets shorter. -/
theorem length_squeezed_lt_iff (hswept : sweepText text = .ok swept) :
    (ofString (squeezeBlankLines swept.text)).length < (ofString text).length ↔
      ¬ (swept.removed = [] ∧ ¬ RepeatsBlankLine text) := by
  constructor
  · intro hshorter hstays
    rw [(squeezed_eq_iff hswept).mpr hstays] at hshorter
    exact lt_irrefl _ hshorter
  · intro hchanges
    by_cases hnone : swept.removed = []
    · have hrepeats : RepeatsBlankLine text := by
        by_contra hnever
        exact hchanges ⟨hnone, hnever⟩
      rw [text_eq_of_removed_eq_nil hswept hnone]
      exact length_squeezeBlankLines_lt_iff.mpr hrepeats
    · exact (length_squeezeBlankLines_le swept.text).trans_lt
        (length_lt_of_removed_ne_nil hswept hnone)

theorem length_lt_iff_removed_ne_nil
    (hsqueezed : squeezeBlankLines text = text)
    (hswept : sweepText text = .ok swept) :
    (ofString (squeezeBlankLines swept.text)).length <
        (ofString text).length ↔ swept.removed ≠ [] := by
  have hnever := squeezeBlankLines_eq_self_iff.mp hsqueezed
  rw [length_squeezed_lt_iff hswept, and_iff_left hnever]

theorem squeezed_eq_iff_removed_eq_nil
    (hsqueezed : squeezeBlankLines text = text)
    (hswept : sweepText text = .ok swept) :
    squeezeBlankLines swept.text = text ↔ swept.removed = [] := by
  have hnever := squeezeBlankLines_eq_self_iff.mp hsqueezed
  rw [squeezed_eq_iff hswept, and_iff_left hnever]

end

/-- What is left of a text names no method as in a call if the text does so in
deleted statements only. -/
theorem not_spellsCall_of_covered {text : String} {swept : Report}
    {statements : List DeletedStatement} {deleted : Finset Nat}
    (hdeletion : Deletion (ofString text) statements deleted)
    (hleft : ofString swept.text = (ofString text).without deleted)
    (hapart : ∀ statement ∈ statements, statement.StandsApart (ofString text))
    (hcovered : ∀ x, NamesMethodAt (ofString text) x →
      ∃ statement ∈ statements, statement.Covers x) :
    ¬ SpellsCall (ofString (squeezeBlankLines swept.text)) := by
  intro hspells
  rcases hspells.exists_namesMethodAt with ⟨x, hsqueezed⟩
  rcases exists_namesMethodAt_of_squeezeBlankLines hsqueezed with ⟨y, hswept⟩
  rw [hleft] at hswept
  rcases hdeletion.exists_namesMethodAt hapart hswept with ⟨z, hnames, hnone⟩
  rcases hcovered z hnames with ⟨statement, hmem, hcovers⟩
  exact hnone statement hmem hcovers

/-- Cleaning up what was cleaned up changes it if and only if it holds a
statement to delete, which is if and only if the second run removes a call, and
if and only if it shortens the text.  A text that spells no call is safe; and so is
one that was cleaned up from a text that names methods, as in calls, only within
the statements that the first run deletes. -/
theorem cleanText_cleanText_eq_iff (text : String) :
    ∃ once report, cleanText text = .ok once ∧ cleanUp once = .ok report ∧
      (cleanText once = .ok once ↔ ¬ HoldsStatement (ofString once)) ∧
      (report.removed = [] ↔ ¬ HoldsStatement (ofString once)) ∧
      ((ofString report.text).length < (ofString once).length ↔
        HoldsStatement (ofString once)) ∧
      (¬ SpellsCall (ofString once) → cleanText once = .ok once) ∧
      ∃ swept statements deleted, sweepText text = .ok swept ∧
        statements.map DeletedStatement.call = swept.removed ∧
        Deletion (ofString text) statements deleted ∧
        ((∀ x, NamesMethodAt (ofString text) x →
            ∃ statement ∈ statements, statement.Covers x) →
          cleanText once = .ok once) := by
  obtain ⟨first, hfirst, -, honce⟩ := exists_cleanUp text
  obtain ⟨second, hsecond, hreport, htwice⟩ :=
    exists_cleanUp (squeezeBlankLines first.text)
  have hsqueezed := squeezeBlankLines_squeezeBlankLines first.text
  have hholds := removed_ne_nil_iff hsecond
  have hremoved : second.removed = [] ↔
      ¬ HoldsStatement (ofString (squeezeBlankLines first.text)) := by
    rw [← hholds, Ne, not_not]
  have hsame : cleanText (squeezeBlankLines first.text) =
        .ok (squeezeBlankLines first.text) ↔
      ¬ HoldsStatement (ofString (squeezeBlankLines first.text)) := by
    rw [htwice, Except.ok.injEq,
      squeezed_eq_iff_removed_eq_nil hsqueezed hsecond, hremoved]
  have hsafe : ¬ SpellsCall (ofString (squeezeBlankLines first.text)) →
      cleanText (squeezeBlankLines first.text) = .ok (squeezeBlankLines first.text) :=
    fun hnever => hsame.mpr fun hholds => hnever hholds.spellsCall
  rcases exists_deletion_apart text with
    ⟨swept, statements, deleted, hswept, hcalls, hdeletion, hleft, hapart⟩
  have hreports := Except.ok.inj (hfirst.symm.trans hswept)
  subst hreports
  refine ⟨_, _, honce, hreport, hsame, hremoved, ?_, hsafe, first, statements, deleted, hfirst,
    hcalls, hdeletion, fun hcovered => ?_⟩
  · rw [← hholds]
    exact length_lt_iff_removed_ne_nil hsqueezed hsecond
  · exact hsafe (not_spellsCall_of_covered hdeletion hleft hapart hcovered)

/-- Nothing that is left spells a call, so all further runs change nothing.  The
text itself tells: the one method that it names is named by the statement that the
first run deletes. -/
theorem cleanText_cleanText_eq_no_call :
    (∃ once, cleanText "a();\n  console.log(1);\n\n\nb();\n" = .ok once ∧
      ¬ SpellsCall (ofString once) ∧ cleanText once = .ok once) ∧
    ∃ (once : String) (statements : List DeletedStatement),
      cleanText "a();\n  console.log(1);\n\n\nb();\n" = .ok once ∧
      NamesMethodAt (ofString "a();\n  console.log(1);\n\n\nb();\n") 7 ∧
      (∀ x, NamesMethodAt (ofString "a();\n  console.log(1);\n\n\nb();\n") x →
        ∃ statement ∈ statements, statement.Covers x) ∧
      cleanText once = .ok once := by
  rcases cleanText_cleanText_eq_iff "a();\n  console.log(1);\n\n\nb();\n" with
    ⟨once, report, honce, -, -, -, -, hsafe, swept, statements, deleted, hswept, hcalls,
      hdeletion, hcovered⟩
  have hcleaned : cleanText "a();\n  console.log(1);\n\n\nb();\n" =
      .ok "a();\n\nb();\n" := by
    decide +kernel
  have hreported : sweepText "a();\n  console.log(1);\n\n\nb();\n" =
      .ok ⟨"a();\n\n\nb();\n", [.removed ⟨.log, 7, 2⟩]⟩ := by
    decide +kernel
  rw [hcleaned, Except.ok.injEq] at honce
  rw [hreported, Except.ok.injEq] at hswept
  subst honce hswept
  have hnever : ¬ SpellsCall (ofString "a();\n\nb();\n") := by
    intro hspells
    rcases hspells.exists_namesMethodAt with ⟨x, hnames⟩
    rcases hnames.take_eq_receiver with ⟨hlt, hreceiver⟩
    clear hnames
    revert x
    decide +kernel
  have honly : ∀ x, NamesMethodAt (ofString "a();\n  console.log(1);\n\n\nb();\n") x →
      x = 7 := by
    intro x hnames
    rcases hnames.take_eq_receiver with ⟨hlt, hreceiver⟩
    clear hnames
    revert x
    decide +kernel
  have hcovers : ∀ x, NamesMethodAt (ofString "a();\n  console.log(1);\n\n\nb();\n") x →
      ∃ statement ∈ statements, statement.Covers x := by
    intro x hnames
    have hcall : (⟨.log, 7, 2⟩ : Call) ∈ statements.map DeletedStatement.call := by
      rw [hcalls]
      decide
    rcases List.mem_map.mp hcall with ⟨statement, hmem, hstart⟩
    rcases hdeletion.spelled statement hmem with ⟨_, _, hspelled⟩
    have hlt := hspelled.start_lt_stop
    rw [hstart] at hlt
    rw [honly x hnames]
    exact ⟨statement, hmem, by rw [hstart], hlt⟩
  have hnamed : NamesMethodAt (ofString "a();\n  console.log(1);\n\n\nb();\n") 7 :=
    ⟨.log, (ofString "a();\n  console.log(1);\n\n\nb();\n").drop 18, by decide +kernel,
      by decide +kernel⟩
  exact ⟨⟨_, hcleaned, hnever, hsafe hnever⟩, _, statements, hcleaned, hnamed, hcovers,
    hcovered hcovers⟩

/-- The second call is one only after the first run. -/
theorem cleanText_cleanText_ne :
    cleanText "console.log\nconsole.log(1);(2);\n" = .ok "console.log\n(2);\n" ∧
      cleanText "console.log\n(2);\n" = .ok "" ∧
      HoldsStatement (ofString "console.log\n(2);\n") := by
  have hswept : sweepText "console.log\n(2);\n" =
      .ok ⟨"", [.removed ⟨.log, 0, 1⟩]⟩ := by
    decide +kernel
  exact ⟨by decide +kernel, by decide +kernel,
    (removed_ne_nil_iff hswept).mp (by decide)⟩

end LogSweep
