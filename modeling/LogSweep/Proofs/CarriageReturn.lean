import LogSweep.Proofs.SweepStep

/-!
# Texts with carriage returns

`crlf` puts a carriage return before every line feed.  A class of bytes that
holds both of them or neither has the same runs in the text and in its image.
So the two are read alike wherever a carriage return counts as white space or
as the end of a line: behind the name of a method, and behind a call.
-/

namespace LogSweep

open Byte Bytes

namespace Bytes

/-- The text with a carriage return before every line feed. -/
def crlf (bytes : Bytes) : Bytes :=
  bytes.flatMap fun b => if b = newline then [carriageReturn, newline] else [b]

@[simp] theorem crlf_nil : crlf [] = [] :=
  rfl

@[simp] theorem crlf_newline (rest : Bytes) :
    crlf (newline :: rest) = carriageReturn :: newline :: crlf rest :=
  rfl

theorem crlf_cons_of_ne {b : UInt8} (hb : b ≠ newline) (rest : Bytes) :
    crlf (b :: rest) = b :: crlf rest := by
  simp [crlf, hb]

theorem exists_crlf_cons (b : UInt8) (rest : Bytes) :
    ∃ first others, crlf (b :: rest) = first :: others ∧
      (first = b ∨ first = carriageReturn) := by
  by_cases hb : b = newline
  · subst hb
    exact ⟨_, _, crlf_newline rest, Or.inr rfl⟩
  · exact ⟨_, _, crlf_cons_of_ne hb rest, Or.inl rfl⟩

@[simp] theorem crlf_append (first second : Bytes) :
    crlf (first ++ second) = crlf first ++ crlf second :=
  List.flatMap_append

theorem crlf_eq_self {bytes : Bytes} (hbytes : newline ∉ bytes) :
    crlf bytes = bytes := by
  induction bytes with
  | nil => rfl
  | cons b bytes ih =>
      simp only [List.mem_cons, not_or] at hbytes
      rw [crlf_cons_of_ne (Ne.symm hbytes.1), ih hbytes.2]

@[simp] theorem crlf_eq_nil_iff {bytes : Bytes} : crlf bytes = [] ↔ bytes = [] := by
  cases bytes with
  | nil => simp
  | cons b bytes =>
      by_cases hb : b = newline
      · simp [hb]
      · simp [crlf_cons_of_ne hb]

@[simp] theorem count_crlf (bytes : Bytes) :
    (crlf bytes).count newline = bytes.count newline := by
  induction bytes with
  | nil => rfl
  | cons b bytes ih =>
      by_cases hb : b = newline
      · subst hb
        rw [crlf_newline, List.count_cons_of_ne (by decide), List.count_cons_self,
          List.count_cons_self, ih]
      · rw [crlf_cons_of_ne hb, List.count_cons_of_ne hb,
          List.count_cons_of_ne hb, ih]

theorem getLast?_crlf (bytes : Bytes) : (crlf bytes).getLast? = bytes.getLast? := by
  rcases List.eq_nil_or_concat bytes with rfl | ⟨before, b, rfl⟩
  · rfl
  · by_cases hb : b = newline
    · simp [hb]
    · simp [crlf_cons_of_ne hb]

theorem head?_crlf_eq_some_iff {b : UInt8} {rest : Bytes} (hnewline : b ≠ newline)
    (hreturn : b ≠ carriageReturn) :
    (crlf rest).head? = some b ↔ rest.head? = some b := by
  cases rest with
  | nil => rfl
  | cons c rest =>
      by_cases hc : c = newline
      · subst hc
        simp [Ne.symm hnewline, Ne.symm hreturn]
      · simp [crlf_cons_of_ne hc]

/-- What is spelled without line ends is spelled alike in both texts. -/
theorem exists_of_crlf_eq_append {spelled rest beyond : Bytes}
    (hspelled : ∀ b ∈ spelled, b ≠ newline ∧ b ≠ carriageReturn)
    (hrest : crlf rest = spelled ++ beyond) :
    ∃ after, rest = spelled ++ after ∧ beyond = crlf after := by
  induction spelled generalizing rest with
  | nil => exact ⟨rest, rfl, hrest.symm⟩
  | cons b spelled ih =>
      obtain ⟨hnewline, hreturn⟩ := hspelled b (by simp)
      cases rest with
      | nil => simp at hrest
      | cons c rest =>
          by_cases hc : c = newline
          · subst hc
            simp only [crlf_newline, List.cons_append, List.cons.injEq] at hrest
            exact absurd hrest.1.symm hreturn
          · rw [crlf_cons_of_ne hc, List.cons_append, List.cons.injEq] at hrest
            obtain ⟨rfl, hrest⟩ := hrest
            obtain ⟨after, rfl, hbeyond⟩ :=
              ih (fun d hd => hspelled d (by simp [hd])) hrest
            exact ⟨after, rfl, hbeyond⟩

/-! ## Runs of one class -/

section

variable {inClass : UInt8 → Bool}

theorem takeWhile_crlf (hclass : inClass carriageReturn = inClass newline)
    (rest : Bytes) :
    (crlf rest).takeWhile inClass = crlf (rest.takeWhile inClass) := by
  induction rest with
  | nil => rfl
  | cons b rest ih =>
      by_cases hb : b = newline
      · subst hb
        cases hnewline : inClass newline <;> simp [hclass, hnewline, ih]
      · rw [crlf_cons_of_ne hb]
        cases hin : inClass b <;> simp [hin, ih, crlf_cons_of_ne hb]

theorem dropWhile_crlf (hclass : inClass carriageReturn = inClass newline)
    (rest : Bytes) :
    (crlf rest).dropWhile inClass = crlf (rest.dropWhile inClass) := by
  have hsame : crlf (rest.takeWhile inClass) ++ (crlf rest).dropWhile inClass =
      crlf (rest.takeWhile inClass) ++ crlf (rest.dropWhile inClass) := by
    rw [← takeWhile_crlf hclass, List.takeWhile_append_dropWhile, takeWhile_crlf hclass,
      ← crlf_append, List.takeWhile_append_dropWhile]
  exact List.append_cancel_left hsame

theorem runLength_crlf (hreturn : inClass carriageReturn = false)
    (hnewline : inClass newline = false) (rest : Bytes) :
    runLength inClass (crlf rest) = runLength inClass rest := by
  have hline : newline ∉ rest.takeWhile inClass := by
    intro hmem
    simpa [hnewline] using List.mem_takeWhile_imp hmem
  rw [runLength, takeWhile_crlf (hreturn.trans hnewline.symm),
    crlf_eq_self hline, runLength]

end
end Bytes

/-- The text with a carriage return before every line feed. -/
def crlfText (text : String) : String :=
  .ofList (text.toList.flatMap fun c => if c = '\n' then ['\r', '\n'] else [c])

/-- An ASCII byte is found in the encoding of no other character. -/
theorem mem_utf8EncodeChar_iff {b : UInt8} (hb : b < 0x80) {c : Char} :
    b ∈ String.utf8EncodeChar c ↔ c = Char.ofUInt8 b := by
  constructor
  · intro hmem
    have hencoded : String.utf8EncodeChar c = [b] := by
      rcases utf8EncodeChar_shape c with
        ⟨only, -, hshape⟩ | ⟨lead, more, hlead, -, hmore, hshape⟩
      · rw [hshape, List.mem_singleton] at hmem
        rw [hshape, hmem]
      · have hlarge : 0x80 ≤ b := by
          rw [hshape, List.mem_cons] at hmem
          rcases hmem with rfl | hmem
          · exact UInt8.le_trans (by decide) hlead
          · exact (hmore b hmem).1
        exact absurd hb (UInt8.not_lt.mpr hlarge)
    have hsame : ofString (.ofList [c]) = ofString (.ofList [Char.ofUInt8 b]) := by
      simp [ofString_eq_flatMap, hencoded, utf8EncodeChar_ofUInt8 hb]
    simpa using ofString_injective hsame
  · rintro rfl
    simp [utf8EncodeChar_ofUInt8 hb]

theorem ofString_crlfText (text : String) :
    ofString (crlfText text) = crlf (ofString text) := by
  have hchar : ∀ c : Char,
      (if c = '\n' then ['\r', '\n'] else [c]).flatMap String.utf8EncodeChar =
        crlf (String.utf8EncodeChar c) := by
    intro c
    split_ifs with hc
    · subst hc
      rfl
    · have hfeed : newline ∉ String.utf8EncodeChar c := by
        rw [mem_utf8EncodeChar_iff (by decide)]
        exact hc
      rw [crlf_eq_self hfeed]
      simp
  rw [ofString_eq_flatMap, ofString_eq_flatMap, crlfText, String.toList_ofList,
    List.flatMap_assoc]
  simp only [hchar]
  rw [crlf, List.flatMap_assoc]
  rfl

theorem carriageReturn_notMem_ofString {text : String}
    (htext : '\r' ∉ text.toList) : carriageReturn ∉ ofString text := by
  rw [ofString_eq_flatMap, List.mem_flatMap]
  rintro ⟨c, hc, hmem⟩
  rw [mem_utf8EncodeChar_iff (by decide)] at hmem
  subst hmem
  exact htext hc

/-! ## Behind a call -/

section

variable (rest : Bytes)

theorem atLineEnd_crlf : atLineEnd (crlf rest) = atLineEnd rest := by
  cases rest with
  | nil => rfl
  | cons b rest =>
      by_cases hb : b = newline
      · simp [hb, atLineEnd]
      · simp [crlf_cons_of_ne hb, atLineEnd]

theorem opensComment_crlf : opensComment (crlf rest) = opensComment rest := by
  match rest with
  | [] => rfl
  | [b] =>
      by_cases hb : b = newline
      · subst hb
        rfl
      · rw [crlf_cons_of_ne hb]
        rfl
  | b :: next :: rest =>
      by_cases hb : b = newline
      · subst hb
        rfl
      · by_cases hnext : next = newline
        · subst hnext
          rw [crlf_cons_of_ne hb]
          rfl
        · rw [crlf_cons_of_ne hb, crlf_cons_of_ne hnext]
          rfl

theorem continuesLine_crlf : continuesLine (crlf rest) = continuesLine rest := by
  cases rest with
  | nil => rfl
  | cons b rest =>
      by_cases hb : b = newline
      · subst hb
        rfl
      · have hopens := opensComment_crlf (b :: rest)
        rw [crlf_cons_of_ne hb] at hopens ⊢
        rw [continuesLine, continuesLine, hopens]

theorem endsBefore_crlf : endsBefore (crlf rest) = endsBefore rest := by
  have hhead : ((crlf rest).head? == some closeBrace) =
      (rest.head? == some closeBrace) := by
    cases rest with
    | nil => rfl
    | cons b rest =>
        by_cases hb : b = newline
        · subst hb
          rfl
        · simp [crlf_cons_of_ne hb]
  rw [endsBefore, endsBefore, opensComment_crlf, hhead]

theorem SpellsEnding.newline_notMem {spelled : Bytes} (hspelled : SpellsEnding spelled) :
    newline ∉ spelled := by
  intro hmem
  rcases hspelled with hblank | ⟨blanks, more, rfl, hblanks, hmore⟩
  · exact absurd (hblank _ hmem) (by decide)
  · rw [List.mem_append, List.mem_cons] at hmem
    rcases hmem with hmem | hmem | hmem
    · exact absurd (hblanks _ hmem) (by decide)
    · exact absurd hmem (by decide)
    · exact absurd (hmore _ hmem) (by decide)

/-- A call ends its statement in both texts or in neither, and the same bytes
behind its parenthesis belong to the statement. -/
theorem Ending.read_crlf : Ending.read (crlf rest) = Ending.read rest := by
  have hblanks : ∀ bytes, runLength isBlank (crlf bytes) = runLength isBlank bytes :=
    runLength_crlf (by decide) (by decide)
  have hbehind : ∀ bytes, (crlf bytes).drop (runLength isBlank bytes) =
      crlf (bytes.drop (runLength isBlank bytes)) := by
    intro bytes
    rw [drop_runLength, ← dropWhile_crlf (by decide), ← drop_runLength, hblanks]
  rw [Ending.read, Ending.read, hblanks, hbehind]
  cases rest.drop (runLength isBlank rest) with
  | nil => rfl
  | cons b after =>
      have hcontinues := continuesLine_crlf ((b :: after).dropWhile isWhitespace)
      rw [← dropWhile_crlf (by decide)] at hcontinues
      by_cases hb : b = newline
      · -- the carriage return ends the line in its place
        subst hb
        rw [crlf_newline] at hcontinues ⊢
        show Ending.mk _ true (!continuesLine _) = Ending.mk _ true (!continuesLine _)
        rw [hcontinues]
      · have hline := atLineEnd_crlf (b :: after)
        have hends := endsBefore_crlf (b :: after)
        rw [crlf_cons_of_ne hb] at hcontinues hline hends ⊢
        simp only [hline, hcontinues, hends, hblanks, hbehind, atLineEnd_crlf]

theorem judge_crlf (last : Option UInt8) (role : Role) (onNewLine : Bool) :
    judge last role onNewLine (crlf rest) = judge last role onNewLine rest := by
  rw [judge, judge, Ending.read_crlf]

/-- The line terminator that goes with a statement takes its carriage return
along. -/
theorem terminatorLength_crlf (hrest : carriageReturn ∉ rest) :
    terminatorLength (crlf rest) =
      (crlf (rest.take (terminatorLength rest))).length := by
  cases rest with
  | nil => rfl
  | cons b rest =>
      simp only [List.mem_cons, not_or] at hrest
      by_cases hb : b = newline
      · subst hb
        rfl
      · rw [crlf_cons_of_ne hb]
        simp [terminatorLength, hb, Ne.symm hrest.1]

end

/-! ## Calls -/

theorem ne_lineEnd_of_isWord {b : UInt8} (hb : isWord b = true) :
    b ≠ newline ∧ b ≠ carriageReturn := by
  constructor <;> rintro rfl <;> exact absurd hb (by decide)

theorem ne_lineEnd_of_mem_named (method : Method) :
    ∀ b ∈ ofString receiver ++ dot :: ofString method.name,
      b ≠ newline ∧ b ≠ carriageReturn := by
  intro b hb
  rw [List.mem_append, List.mem_cons] at hb
  rcases hb with hb | rfl | hb
  · exact ne_lineEnd_of_isWord (isWord_of_mem_receiver b hb)
  · decide
  · exact ne_lineEnd_of_isWord (isWord_of_mem_name method b hb)

namespace SweepState

section

variable {state state' : SweepState} {rest : Bytes} {method : Method} {opening : Nat}

/-- A call met in a text is met in its image, with the image of the same bytes
before its parenthesis. -/
theorem MeetsCall.inCrlf (hlast : state'.last = state.last)
    (hcall : state.MeetsCall rest method opening) :
    ∃ head after, rest = head ++ openParen :: after ∧
      opening = state.offset + head.length ∧
      state'.MeetsCall (crlf rest) method (state'.offset + (crlf head).length) := by
  obtain ⟨gap, after, hgap, hrest, hopening⟩ := hcall.spelled
  have hnamed : crlf (ofString receiver ++ dot :: ofString method.name) =
      ofString receiver ++ dot :: ofString method.name :=
    crlf_eq_self fun hmem => (ne_lineEnd_of_mem_named method _ hmem).1 rfl
  have hspace : ∀ b ∈ crlf gap, isWhitespace b = true := by
    intro b hb
    have hall : (crlf gap).takeWhile isWhitespace = crlf gap := by
      rw [takeWhile_crlf (by decide), List.takeWhile_eq_self_iff.mpr hgap]
    rw [← hall] at hb
    exact List.mem_takeWhile_imp hb
  refine ⟨ofString receiver ++ dot :: ofString method.name ++ gap, after,
    ?_, ?_, hlast ▸ hcall.notMember, crlf gap, crlf after, hspace, ?_, ?_⟩
  · simp [hrest]
  · simp [hopening]
    omega
  · have hparen : crlf (openParen :: after) = openParen :: crlf after :=
      crlf_cons_of_ne (by decide) after
    have hsplit : rest = (ofString receiver ++ dot :: ofString method.name) ++
        (gap ++ openParen :: after) := by
      simp [hrest]
    rw [hsplit, crlf_append, hnamed, crlf_append, hparen]
    simp
  · rw [crlf_append, hnamed]
    simp
    omega

theorem MeetsCall.ofCrlf (hlast : state'.last = state.last)
    (hcall : state'.MeetsCall (crlf rest) method opening) :
    ∃ before, state.MeetsCall rest method before := by
  obtain ⟨gap, after, hgap, hrest, -⟩ := hcall.spelled
  have hsplit : crlf rest = (ofString receiver ++ dot :: ofString method.name) ++
      (gap ++ openParen :: after) := by
    simp [hrest]
  obtain ⟨called, rfl, hcalled⟩ :=
    exists_of_crlf_eq_append (ne_lineEnd_of_mem_named method) hsplit
  have hbehind : crlf (called.dropWhile isWhitespace) = [openParen] ++ after := by
    rw [← dropWhile_crlf (by decide), ← hcalled,
      List.dropWhile_append_of_pos hgap]
    rfl
  have hparen : ∀ b ∈ [openParen], b ≠ newline ∧ b ≠ carriageReturn := by
    intro b hb
    rw [List.mem_singleton] at hb
    subst hb
    decide
  obtain ⟨behind, hopen, -⟩ := exists_of_crlf_eq_append hparen hbehind
  refine ⟨_, hlast ▸ hcall.notMember, called.takeWhile isWhitespace, behind,
    fun b hb => List.mem_takeWhile_imp hb, ?_, rfl⟩
  have hwhole := List.takeWhile_append_dropWhile (p := isWhitespace) (l := called)
  rw [hopen, List.singleton_append] at hwhole
  simp only [List.append_assoc, List.cons_append, hwhole]

end
end SweepState
end LogSweep
