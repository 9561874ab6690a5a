import Mathlib.Data.List.TakeWhile
import Mathlib.Tactic
import LogSweep.Offset

/-!
# Character boundaries

The encoding of a character is one ASCII byte, or a lead byte from `0xC0` on
and continuation bytes from `0x80` to `0xBF`.  So a text may be cut before a
byte that is no continuation byte, and both parts are texts again.  Beside an
ASCII byte, and at the end of the text, every cut is of that kind.
-/

namespace LogSweep
namespace Bytes

/-! ## Reading from an offset -/

theorem suffixFrom_eq_ok_iff {rest after : Bytes} {start : Nat} :
    rest.suffixFrom start = .ok after ↔
      start ≤ rest.length ∧ after = rest.drop start := by
  induction start generalizing rest with
  | zero =>
      cases rest <;> simp [suffixFrom, eq_comm]
  | succ start ih =>
      cases rest with
      | nil =>
          simp [suffixFrom]
      | cons b rest =>
          simp [suffixFrom, ih]

theorem suffixFrom_of_le {rest : Bytes} {start : Nat}
    (hle : start ≤ rest.length) :
    rest.suffixFrom start = .ok (rest.drop start) :=
  suffixFrom_eq_ok_iff.mpr ⟨hle, rfl⟩

theorem checkCut_eq_ok_iff {rest : Bytes} {count : Nat} :
    rest.checkCut count = .ok () ↔
      count ≤ rest.length ∧ startsCharacter (rest.drop count) = true := by
  by_cases hle : count ≤ rest.length
  · rw [checkCut, suffixFrom_of_le hle]
    cases hstarts : startsCharacter (rest.drop count) <;>
      simp [bind, Except.bind, hstarts, hle]
  · have hfault : rest.suffixFrom count ≠ .ok (rest.drop count) := by
      intro hok
      exact hle (suffixFrom_eq_ok_iff.mp hok).1
    cases hsuffix : rest.suffixFrom count with
    | error fault =>
        simp [checkCut, hsuffix, bind, Except.bind, hle]
    | ok after =>
        have hafter := (suffixFrom_eq_ok_iff.mp hsuffix).2
        rw [hafter] at hsuffix
        contradiction

theorem drop_eq_cons_of_getElem? {src : Bytes} {start : Nat} {b : UInt8}
    (hb : src[start]? = some b) : src.drop start = b :: src.drop (start + 1) := by
  rcases List.getElem?_eq_some_iff.mp hb with ⟨hlt, rfl⟩
  exact List.drop_eq_getElem_cons hlt

/-! ## Runs of one class -/

theorem take_runLength (inClass : UInt8 → Bool) (rest : Bytes) :
    rest.take (runLength inClass rest) = rest.takeWhile inClass := by
  induction rest with
  | nil =>
      simp [runLength]
  | cons b rest ih =>
      cases hb : inClass b with
      | true =>
          simpa [runLength, hb] using ih
      | false =>
          simp [runLength, hb]

theorem drop_runLength (inClass : UInt8 → Bool) (rest : Bytes) :
    rest.drop (runLength inClass rest) = rest.dropWhile inClass := by
  induction rest with
  | nil =>
      simp [runLength]
  | cons b rest ih =>
      cases hb : inClass b with
      | true =>
          simpa [runLength, hb] using ih
      | false =>
          simp [runLength, hb]

theorem runLength_le_length (inClass : UInt8 → Bool) (rest : Bytes) :
    runLength inClass rest ≤ rest.length :=
  (List.takeWhile_prefix inClass).length_le

theorem runEnd_of_le {inClass : UInt8 → Bool} {src : Bytes} {start : Nat}
    (hle : start ≤ src.length) :
    src.runEnd inClass start =
      .ok (start + runLength inClass (src.drop start)) := by
  rw [runEnd, suffixFrom_of_le hle]
  rfl

theorem runEnd_le_length {inClass : UInt8 → Bool} {src : Bytes} {start : Nat}
    (hle : start ≤ src.length) :
    start + runLength inClass (src.drop start) ≤ src.length := by
  have hrun := runLength_le_length inClass (src.drop start)
  rw [List.length_drop] at hrun
  omega

/-! ## Texts -/

/-- These bytes are the encoding of a text. -/
def IsText (bytes : Bytes) : Prop :=
  ∃ text, ofString text = bytes

theorem ofString_eq_flatMap (text : String) :
    ofString text = text.toList.flatMap String.utf8EncodeChar := by
  rw [ofString, ← String.utf8Encode_toList]
  simp [List.utf8Encode]

theorem isText_iff_exists_chars {bytes : Bytes} :
    IsText bytes ↔
      ∃ chars : List Char, chars.flatMap String.utf8EncodeChar = bytes := by
  constructor
  · rintro ⟨text, rfl⟩
    exact ⟨text.toList, (ofString_eq_flatMap text).symm⟩
  · rintro ⟨chars, rfl⟩
    refine ⟨String.ofList chars, ?_⟩
    rw [ofString_eq_flatMap, String.toList_ofList]

theorem decode?_eq_some_iff {bytes : Bytes} {text : String} :
    decode? bytes = some text ↔ ofString text = bytes := by
  unfold decode? String.fromUTF8?
  constructor
  · intro hdecode
    split at hdecode
    next hvalid =>
      simp only [Option.some.injEq] at hdecode
      subst text
      simp [ofString, String.fromUTF8]
    next => simp at hdecode
  · rintro rfl
    have hbytes : (⟨(ofString text).toArray⟩ : ByteArray) = text.toByteArray := by
      simp [ofString]
    rw [hbytes, dif_pos text.isValidUTF8]
    rfl

theorem decode?_ofString (text : String) :
    decode? (ofString text) = some text :=
  decode?_eq_some_iff.mpr rfl

theorem ofString_injective : Function.Injective ofString := by
  intro text text' htext
  have hdecode := congrArg decode? htext
  simpa [decode?_ofString] using hdecode

theorem ofString_append (first second : String) :
    ofString (first ++ second) = ofString first ++ ofString second := by
  simp [ofString]

@[simp] theorem isText_nil : IsText [] :=
  isText_iff_exists_chars.mpr ⟨[], rfl⟩

theorem IsText.append {first second : Bytes}
    (hfirst : IsText first) (hsecond : IsText second) :
    IsText (first ++ second) := by
  rw [isText_iff_exists_chars] at hfirst hsecond ⊢
  obtain ⟨firstChars, rfl⟩ := hfirst
  obtain ⟨secondChars, rfl⟩ := hsecond
  exact ⟨firstChars ++ secondChars, List.flatMap_append⟩

theorem continuation_bounds (v : Nat) :
    0x80 ≤ UInt8.ofNat (v % 0x40 + 0x80) ∧
      UInt8.ofNat (v % 0x40 + 0x80) < 0xC0 := by
  rw [UInt8.le_iff_toNat_le, UInt8.lt_iff_toNat_lt]
  simp only [UInt8.toNat_ofNat']
  constructor <;> simp <;> omega

theorem lead_bound {v : Nat} (hlow : 0xC0 ≤ v) (hhigh : v < 0x100) :
    0xC0 ≤ UInt8.ofNat v := by
  rw [UInt8.le_iff_toNat_le]
  simp only [UInt8.toNat_ofNat', Nat.mod_eq_of_lt hhigh]
  exact hlow

/-- The encoding of a character: one ASCII byte, or a lead byte and at least
one continuation byte. -/
theorem utf8EncodeChar_shape (c : Char) :
    (∃ b, b < 0x80 ∧ String.utf8EncodeChar c = [b]) ∨
      ∃ lead more, 0xC0 ≤ lead ∧ more ≠ [] ∧
        (∀ b ∈ more, 0x80 ≤ b ∧ b < 0xC0) ∧
        String.utf8EncodeChar c = lead :: more := by
  unfold String.utf8EncodeChar
  simp only
  generalize c.val.toNat = v
  split_ifs with hone htwo hthree
  · left
    refine ⟨UInt8.ofNat v, ?_, rfl⟩
    rw [UInt8.lt_iff_toNat_lt]
    simp
    omega
  all_goals
    right
    refine ⟨_, _, lead_bound (by omega) (by omega), by simp, ?_, rfl⟩
    intro b hb
    simp only [List.mem_cons, List.not_mem_nil, or_false] at hb
  · subst hb
    exact continuation_bounds v
  · rcases hb with rfl | rfl
    · exact continuation_bounds (v / 64)
    · exact continuation_bounds v
  · rcases hb with rfl | rfl | rfl
    · exact continuation_bounds (v / 4096)
    · exact continuation_bounds (v / 64)
    · exact continuation_bounds v

theorem utf8EncodeChar_ofUInt8 {b : UInt8} (hb : b < 0x80) :
    String.utf8EncodeChar (Char.ofUInt8 b) = [b] := by
  have hlt : b.toNat < 128 := UInt8.lt_iff_toNat_lt.mp hb
  have hval : (Char.ofUInt8 b).val.toNat = b.toNat := UInt8.toNat_toUInt32 b
  simp only [String.utf8EncodeChar, hval]
  rw [if_pos (by omega)]
  simp

theorem isText_of_ascii {bytes : Bytes}
    (hascii : ∀ b ∈ bytes, b < 0x80) :
    IsText bytes := by
  induction bytes with
  | nil =>
      exact isText_nil
  | cons b bytes ih =>
      have hb : b < 0x80 := hascii b (by simp)
      have hrest := ih (fun c hc => hascii c (by simp [hc]))
      have hfirst : IsText [b] :=
        isText_iff_exists_chars.mpr
          ⟨[Char.ofUInt8 b], by simp [utf8EncodeChar_ofUInt8 hb]⟩
      exact hfirst.append hrest

/-! ## Cuts -/

theorem IsText.startsCharacter {bytes : Bytes} (htext : IsText bytes) :
    startsCharacter bytes = true := by
  obtain ⟨chars, rfl⟩ := isText_iff_exists_chars.mp htext
  cases chars with
  | nil =>
      rfl
  | cons c chars =>
      rcases utf8EncodeChar_shape c with
        ⟨b, hb, hchar⟩ | ⟨lead, more, hlead, -, -, hchar⟩
      · simp [hchar, Bytes.startsCharacter, hb]
      · simp [hchar, Bytes.startsCharacter, hlead]

/-- Inside the encoding of a character no cut is possible. -/
theorem utf8EncodeChar_cut {c : Char} {before cut rest : Bytes}
    (hchar : String.utf8EncodeChar c = before ++ cut)
    (hstarts : Bytes.startsCharacter (cut ++ rest) = true) :
    before = [] ∨ cut = [] := by
  cases before with
  | nil =>
      exact Or.inl rfl
  | cons first before =>
      right
      cases cut with
      | nil =>
          rfl
      | cons b cut =>
          exfalso
          rcases utf8EncodeChar_shape c with
            ⟨single, -, hsingle⟩ | ⟨lead, more, -, -, hmore, hlead⟩
          · rw [hsingle] at hchar
            simp at hchar
          · rw [hlead] at hchar
            simp only [List.cons_append, List.cons.injEq] at hchar
            have hb := hmore b (by simp [hchar.2])
            simp only [List.cons_append, Bytes.startsCharacter,
              Bool.or_eq_true, decide_eq_true_eq] at hstarts
            rcases hstarts with hlow | hhigh
            · exact absurd hb.1 (UInt8.not_le.mpr hlow)
            · exact absurd hb.2 (UInt8.not_lt.mpr hhigh)

/-- A text may be cut before every byte that is no continuation byte. -/
theorem IsText.cut {before after : Bytes}
    (htext : IsText (before ++ after))
    (hstarts : Bytes.startsCharacter after = true) :
    IsText before ∧ IsText after := by
  obtain ⟨chars, hchars⟩ := isText_iff_exists_chars.mp htext
  clear htext
  induction chars generalizing before with
  | nil =>
      have hnil : before = [] ∧ after = [] := by
        simpa [eq_comm] using hchars
      simp [hnil]
  | cons c chars ih =>
      have hfirst : IsText (String.utf8EncodeChar c) :=
        isText_iff_exists_chars.mpr ⟨[c], by simp⟩
      have hothers : IsText (chars.flatMap String.utf8EncodeChar) :=
        isText_iff_exists_chars.mpr ⟨chars, rfl⟩
      rw [List.flatMap_cons] at hchars
      rcases List.append_eq_append_iff.mp hchars with
        ⟨more, hbefore, hrest⟩ | ⟨cut, hchar, hafter⟩
      · obtain ⟨hmore, hafter⟩ := ih hrest
        exact ⟨hbefore ▸ hfirst.append hmore, hafter⟩
      · rw [hafter] at hstarts
        rcases utf8EncodeChar_cut hchar hstarts with rfl | rfl
        · rw [List.nil_append] at hchar
          rw [hafter, ← hchar]
          exact ⟨isText_nil, hfirst.append hothers⟩
        · rw [List.append_nil] at hchar
          rw [hafter, ← hchar]
          exact ⟨hfirst, hothers⟩

theorem IsText.startsCharacter_after_ascii
    {before after : Bytes} {b : UInt8}
    (htext : IsText (before ++ b :: after)) (hb : b < 0x80) :
    Bytes.startsCharacter after = true := by
  have hstarts : Bytes.startsCharacter (b :: after) = true := by
    simp [Bytes.startsCharacter, hb]
  obtain ⟨chars, hchars⟩ := isText_iff_exists_chars.mp (htext.cut hstarts).2
  cases chars with
  | nil =>
      simp at hchars
  | cons c chars =>
      have hothers : IsText (chars.flatMap String.utf8EncodeChar) :=
        isText_iff_exists_chars.mpr ⟨chars, rfl⟩
      rw [List.flatMap_cons] at hchars
      rcases utf8EncodeChar_shape c with
        ⟨single, -, hsingle⟩ | ⟨lead, more, hhigh, -, -, hlead⟩
      · rw [hsingle] at hchars
        simp only [List.cons_append, List.nil_append, List.cons.injEq] at hchars
        exact hchars.2 ▸ hothers.startsCharacter
      · rw [hlead] at hchars
        simp only [List.cons_append, List.cons.injEq] at hchars
        rw [hchars.1, UInt8.le_iff_toNat_le] at hhigh
        rw [UInt8.lt_iff_toNat_lt] at hb
        exact absurd (Nat.lt_of_le_of_lt hhigh hb) (by decide)

/-- A cut beside an ASCII byte, or one that takes all bytes. -/
inductive AsciiCut : Bytes → Nat → Prop where
  | atEnd : AsciiCut [] 0
  | before {b : UInt8} {rest : Bytes} : b < 0x80 → AsciiCut (b :: rest) 0
  | after {b : UInt8} {rest : Bytes} : b < 0x80 → AsciiCut (b :: rest) 1
  | later {b : UInt8} {rest : Bytes} {count : Nat} :
      AsciiCut rest count → AsciiCut (b :: rest) (count + 1)

theorem AsciiCut.le_length {rest : Bytes} {count : Nat}
    (hcut : AsciiCut rest count) : count ≤ rest.length := by
  induction hcut with
  | atEnd => simp
  | before => simp
  | after => simp
  | later _ ih => simpa using ih

theorem AsciiCut.of_drop {rest : Bytes} {skipped count : Nat}
    (hskipped : skipped ≤ rest.length)
    (hcut : AsciiCut (rest.drop skipped) count) :
    AsciiCut rest (skipped + count) := by
  induction skipped generalizing rest with
  | zero =>
      simpa using hcut
  | succ skipped ih =>
      cases rest with
      | nil =>
          simp at hskipped
      | cons b rest =>
          rw [Nat.add_right_comm]
          exact .later (ih (by simpa using hskipped) (by simpa using hcut))

/-- A run of a class stops beside an ASCII byte if all others belong to it. -/
theorem asciiCut_runLength {inClass : UInt8 → Bool}
    (hothers : ∀ b, inClass b = false → b < 0x80) (rest : Bytes) :
    AsciiCut rest (runLength inClass rest) := by
  induction rest with
  | nil =>
      exact .atEnd
  | cons b rest ih =>
      cases hb : inClass b with
      | true =>
          simpa [runLength, hb] using AsciiCut.later (b := b) ih
      | false =>
          have hcut : AsciiCut (b :: rest) 0 := .before (hothers b hb)
          simpa [runLength, hb] using hcut

theorem asciiCut_of_forall_ascii {rest : Bytes} {count : Nat}
    (hle : count + 1 ≤ rest.length)
    (hascii : ∀ b ∈ rest.take (count + 1), b < 0x80) :
    AsciiCut rest (count + 1) := by
  induction count generalizing rest with
  | zero =>
      cases rest with
      | nil =>
          simp at hle
      | cons b rest =>
          exact .after (hascii b (by simp))
  | succ count ih =>
      cases rest with
      | nil =>
          simp at hle
      | cons b rest =>
          refine .later (ih (by simpa using hle) ?_)
          intro c hc
          have hmem : c ∈ (b :: rest).take (count + 1 + 1) := by
            rw [List.take_succ_cons]
            exact List.mem_cons_of_mem b hc
          exact hascii c hmem

/-- In a text, a cut beside an ASCII byte splits no character. -/
theorem AsciiCut.startsCharacter {before rest : Bytes} {count : Nat}
    (hcut : AsciiCut rest count) (htext : IsText (before ++ rest)) :
    Bytes.startsCharacter (rest.drop count) = true := by
  induction hcut generalizing before with
  | atEnd =>
      rfl
  | before hb =>
      simp [Bytes.startsCharacter, hb]
  | after hb =>
      simpa using htext.startsCharacter_after_ascii hb
  | @later b rest count _ ih =>
      exact ih (by simpa using htext : IsText ((before ++ [b]) ++ rest))

theorem AsciiCut.checkCut {src : Bytes} {count : Nat}
    (hcut : AsciiCut src count) (htext : IsText src) :
    src.checkCut count = .ok () :=
  checkCut_eq_ok_iff.mpr ⟨hcut.le_length,
    hcut.startsCharacter (by simpa using htext : IsText ([] ++ src))⟩

/-! ## Boundaries -/

/-- This place lies between two characters, or at an end of the text: what is
before it and what is behind it are texts. -/
structure IsBoundary (src : Bytes) (place : Nat) : Prop where
  within : place ≤ src.length
  before : IsText (src.take place)
  behind : IsText (src.drop place)

section

variable {src : Bytes} {place : Nat} (htext : IsText src)

include htext

/-- The boundaries of a text are the places where the check lets it be cut. -/
theorem isBoundary_iff_checkCut : IsBoundary src place ↔ src.checkCut place = .ok () := by
  rw [checkCut_eq_ok_iff]
  constructor
  · intro hplace
    exact ⟨hplace.within, hplace.behind.startsCharacter⟩
  · rintro ⟨hle, hstarts⟩
    rw [← List.take_append_drop place src] at htext
    rcases htext.cut hstarts with ⟨hbefore, hbehind⟩
    exact ⟨hle, hbefore, hbehind⟩

theorem AsciiCut.isBoundary (hcut : AsciiCut src place) : IsBoundary src place :=
  (isBoundary_iff_checkCut htext).mpr (hcut.checkCut htext)

theorem isBoundary_of_getElem? {b : UInt8} (hbyte : src[place]? = some b) (hb : b < 0x80) :
    IsBoundary src place := by
  have hlt := (List.getElem?_eq_some_iff.mp hbyte).1
  have hcut : AsciiCut (src.drop place) 0 := drop_eq_cons_of_getElem? hbyte ▸ .before hb
  exact (AsciiCut.of_drop hlt.le hcut).isBoundary htext

/-- From a boundary, a run of ASCII bytes leads to a boundary. -/
theorem IsBoundary.runLength {inClass : UInt8 → Bool} {start : Nat}
    (hascii : ∀ b, inClass b = true → b < 0x80) (hstart : IsBoundary src start) :
    IsBoundary src (start + runLength inClass (src.drop start)) := by
  cases hrun : Bytes.runLength inClass (src.drop start) with
  | zero => exact hstart
  | succ count =>
      -- the run is not empty, so the cut is behind its last byte
      have hcut : AsciiCut (src.drop start) (count + 1) := by
        apply asciiCut_of_forall_ascii
        · rw [← hrun]
          exact runLength_le_length inClass (src.drop start)
        · intro b hb
          rw [← hrun, take_runLength] at hb
          exact hascii b (List.mem_takeWhile_imp hb)
      exact (AsciiCut.of_drop hstart.within hcut).isBoundary htext

end

end Bytes
end LogSweep
