import Mathlib.Data.Nat.Count
import LogSweep.Proofs.ParenthesisNesting
import LogSweep.Proofs.TrailingSweep

/-!
# Where a search for a closing bracket ends

A search that starts at an opening bracket reads the code from there as if
nothing stood before it.  It ends at the first byte of that code up to which as
many brackets close as open.  The counter is the difference of the two numbers:
it is one behind the bracket where the search starts and comes to zero only
where the search ends, so it never falls below.
-/

namespace LogSweep

open Byte Bytes

/-! ## Code from a place on -/

/-- The byte `b` at this place is code for a reading that starts at `start` with
nothing before it. -/
def IsCodeAt (src : Bytes) (start place : Nat) (b : UInt8) : Prop :=
  start ≤ place ∧ src[place]? = some b ∧ OutsideLiterals (src.drop start) (place - start)

theorem mem_codeBytes_drop_iff {src : Bytes} {start place : Nat} {b : UInt8} :
    ⟨place, b⟩ ∈ codeBytes start (src.drop start) ↔ IsCodeAt src start place b := by
  have hshift : codeBytes start (src.drop start) = (codeBytes 0 (src.drop start)).map
      (CodeByte.behind (List.replicate start b)) := by
    rw [codeBytes_eq_codeAfter, codeBytes_eq_codeAfter, ← codeAfter_behind, List.length_replicate,
      Nat.add_zero]
  have hbehind : ∀ skipped, CodeByte.behind (List.replicate start b) ⟨skipped, b⟩ =
      ⟨start + skipped, b⟩ := by
    intro skipped
    rw [CodeByte.behind, List.length_replicate]
  rw [hshift, List.mem_map]
  constructor
  · rintro ⟨⟨skipped, b'⟩, hmem, hplace⟩
    rw [CodeByte.behind, CodeByte.mk.injEq, List.length_replicate] at hplace
    rcases hplace with ⟨rfl, rfl⟩
    rcases mem_codeBytes_iff.mp hmem with ⟨hbyte, houtside⟩
    rw [List.getElem?_drop] at hbyte
    rw [IsCodeAt, Nat.add_sub_cancel_left]
    exact ⟨Nat.le_add_right start skipped, hbyte, houtside⟩
  · rintro ⟨hle, hbyte, houtside⟩
    refine ⟨⟨place - start, b⟩, mem_codeBytes_iff.mpr ⟨?_, houtside⟩, ?_⟩
    · rw [List.getElem?_drop, Nat.add_sub_cancel' hle, hbyte]
    · rw [hbehind, Nat.add_sub_cancel' hle]

instance (src : Bytes) (start place : Nat) (b : UInt8) : Decidable (IsCodeAt src start place b) :=
  decidable_of_iff _ mem_codeBytes_drop_iff

/-- How often the byte `b` is code from `start` up to this place, the place
itself included. -/
def codeCount (src : Bytes) (start place : Nat) (b : UInt8) : Nat :=
  Nat.count (fun x => IsCodeAt src start x b) (place + 1)

/-- The first code byte up to which as many brackets close as open. -/
structure FirstBalanced (src : Bytes) (start : Nat) (opening closing : UInt8) (place : Nat) :
    Prop where
  code : ∃ b, IsCodeAt src start place b
  balanced : codeCount src start place closing = codeCount src start place opening
  first :
    ∀ earlier b, earlier < place → IsCodeAt src start earlier b →
      codeCount src start earlier closing ≠ codeCount src start earlier opening

theorem FirstBalanced.unique {src : Bytes} {start : Nat} {opening closing : UInt8}
    {place place' : Nat} (hfirst : FirstBalanced src start opening closing place)
    (hfirst' : FirstBalanced src start opening closing place') : place = place' := by
  rcases hfirst.code with ⟨b, hcode⟩
  rcases hfirst'.code with ⟨b', hcode'⟩
  rcases Nat.lt_trichotomy place place' with hlt | heq | hlt
  · exact absurd hfirst.balanced (hfirst'.first place b hlt hcode)
  · exact heq
  · exact absurd hfirst'.balanced (hfirst.first place' b' hlt hcode')

/-! ## Counting along the code -/

/-- How often the byte `b` occurs among these code bytes. -/
def occurrences (b : UInt8) (code : List CodeByte) : Nat :=
  code.countP fun c => c.byte == b

section

variable {src : Bytes} {start : Nat} {before after : List CodeByte} {c : CodeByte}
  (hcode : codeBytes start (src.drop start) = before ++ c :: after)

include hcode

/-- The code bytes before this one are those at smaller places. -/
theorem mem_before_iff {earlier : CodeByte} :
    earlier ∈ before ↔
      earlier.offset < c.offset ∧ IsCodeAt src start earlier.offset earlier.byte := by
  have hsorted := codeAfter_pairwise none start (src.drop start)
  rw [← codeBytes_eq_codeAfter, hcode, List.pairwise_append, List.pairwise_cons] at hsorted
  rcases hsorted with ⟨-, ⟨hafter, -⟩, hapart⟩
  rw [← mem_codeBytes_drop_iff, hcode, List.mem_append, List.mem_cons]
  constructor
  · intro hmem
    exact ⟨hapart earlier hmem c List.mem_cons_self, Or.inl hmem⟩
  · rintro ⟨hlt, hmem | rfl | hmem⟩
    · exact hmem
    · exact absurd hlt (lt_irrefl _)
    · exact absurd (hafter earlier hmem) hlt.asymm

/-- Up to a code byte, counting places comes to the same as counting along the code. -/
theorem codeCount_eq_occurrences (b : UInt8) :
    codeCount src start c.offset b = occurrences b (before ++ [c]) := by
  have hhere : IsCodeAt src start c.offset c.byte := by
    rw [← mem_codeBytes_drop_iff, hcode]
    exact List.mem_append_right before List.mem_cons_self
  have hmem : ∀ x, x < c.offset + 1 ∧ IsCodeAt src start x b ↔ ⟨x, b⟩ ∈ before ++ [c] := by
    intro x
    rw [List.mem_append, mem_before_iff hcode, List.mem_singleton, Nat.lt_succ_iff_lt_or_eq]
    constructor
    · rintro ⟨hlt | rfl, hx⟩
      · exact Or.inl ⟨hlt, hx⟩
      · have hb : b = c.byte := Option.some.inj (hx.2.1.symm.trans hhere.2.1)
        exact Or.inr (by rw [hb])
    · rintro (⟨hlt, hx⟩ | rfl)
      · exact ⟨Or.inl hlt, hx⟩
      · exact ⟨Or.inr rfl, hhere⟩
  have hsorted : (before ++ [c]).Pairwise (fun first second => first.offset < second.offset) := by
    have hall := codeAfter_pairwise none start (src.drop start)
    rw [← codeBytes_eq_codeAfter, hcode, List.append_cons] at hall
    exact (List.pairwise_append.mp hall).1
  have hplaces : {x ∈ Finset.range (c.offset + 1) | IsCodeAt src start x b} =
      (((before ++ [c]).filter (·.byte == b)).map CodeByte.offset).toFinset := by
    ext x
    rw [Finset.mem_filter, Finset.mem_range, hmem, List.mem_toFinset, List.mem_map]
    constructor
    · intro hx
      exact ⟨⟨x, b⟩, List.mem_filter.mpr ⟨hx, beq_self_eq_true b⟩, rfl⟩
    · rintro ⟨⟨place, b'⟩, hfilter, rfl⟩
      rcases List.mem_filter.mp hfilter with ⟨hx, hb⟩
      rwa [← eq_of_beq hb]
  have hdistinct : (((before ++ [c]).filter (·.byte == b)).map CodeByte.offset).Nodup := by
    rw [List.Nodup, List.pairwise_map]
    exact (hsorted.filter _).imp fun hlt => Nat.ne_of_lt hlt
  rw [codeCount, Nat.count_eq_card_filter_range, hplaces, List.toFinset_card_of_nodup hdistinct,
    List.length_map, occurrences, List.countP_eq_length_filter]

end

/-- However far these code bytes are read after `depth` open brackets, more open
than close. -/
def StaysOpen (opening closing : UInt8) (depth : Nat) (code : List CodeByte) : Prop :=
  ∀ front, front <+: code → occurrences closing front < depth + occurrences opening front

/-- How a count that starts with `depth` open brackets ends. -/
inductive CountEnds (opening closing : UInt8) (depth : Nat) (code : List CodeByte) :
    Closing → Prop where
  | found {before after : List CodeByte} {c : CodeByte} :
      code = before ++ c :: after → c.byte = closing → StaysOpen opening closing depth before →
      occurrences closing (before ++ [c]) = depth + occurrences opening (before ++ [c]) →
      CountEnds opening closing depth code (.found c.offset)
  | unclosed :
      StaysOpen opening closing depth code → CountEnds opening closing depth code .unclosed

section

variable {opening closing : UInt8} {depth depth' : Nat} {code : List CodeByte} {c : CodeByte}

theorem occurrences_cons (b : UInt8) (c : CodeByte) (code : List CodeByte) :
    occurrences b (c :: code) = occurrences b code + if c.byte = b then 1 else 0 := by
  unfold occurrences
  simp [List.countP_cons]

/-- Reading a byte leaves the difference between what opens and what closes as it
is, if the brackets open before are counted with it. -/
theorem occurrences_step
    (hstep : depth + (if c.byte = opening then 1 else 0) =
      depth' + if c.byte = closing then 1 else 0) (code : List CodeByte) :
    depth + occurrences opening (c :: code) + occurrences closing code =
      depth' + occurrences opening code + occurrences closing (c :: code) := by
  rw [occurrences_cons, occurrences_cons]
  omega

theorem StaysOpen.cons (hdepth : 0 < depth)
    (hstep : depth + (if c.byte = opening then 1 else 0) =
      depth' + if c.byte = closing then 1 else 0)
    (hopen : StaysOpen opening closing depth' code) :
    StaysOpen opening closing depth (c :: code) := by
  intro front hfront
  rcases List.prefix_cons_iff.mp hfront with rfl | ⟨later, rfl, hlater⟩
  · exact Nat.lt_add_right _ hdepth
  · have hlt := hopen later hlater
    have hcount := occurrences_step hstep later
    omega

theorem CountEnds.cons {result : Closing} (hdepth : 0 < depth)
    (hstep : depth + (if c.byte = opening then 1 else 0) =
      depth' + if c.byte = closing then 1 else 0)
    (hends : CountEnds opening closing depth' code result) :
    CountEnds opening closing depth (c :: code) result := by
  cases hends with
  | @found before after last hcode hbyte hopen hcount =>
      have hsplit : c :: code = (c :: before) ++ last :: after := by
        rw [hcode, List.cons_append]
      apply CountEnds.found hsplit hbyte (hopen.cons hdepth hstep)
      have hshift := occurrences_step hstep (before ++ [last])
      rw [List.cons_append]
      omega
  | unclosed hopen => exact .unclosed (hopen.cons hdepth hstep)

/-- A search with an open bracket counts until as many close as open, and it never
comes to a closing one too many. -/
theorem closingIn_countEnds (hdistinct : opening ≠ closing) (depth : Nat)
    (code : List CodeByte) :
    CountEnds opening closing (depth + 1) code (closingIn opening closing (depth + 1) code) := by
  induction code generalizing depth with
  | nil =>
      apply CountEnds.unclosed
      intro front hfront
      rw [List.prefix_nil.mp hfront]
      exact Nat.succ_pos depth
  | cons c code ih =>
      rw [closingIn.eq_def]
      simp only
      split_ifs with hopen hclose
      · refine (ih (depth + 1)).cons (Nat.succ_pos depth) ?_
        rw [if_pos hopen, if_neg (hopen ▸ hdistinct), Nat.add_zero]
      · have hother : ¬ c.byte = opening := hopen
        cases depth with
        | zero =>
            apply CountEnds.found (List.nil_append (c :: code)).symm hclose
            · intro front hfront
              rw [List.prefix_nil.mp hfront]
              exact Nat.one_pos
            · rw [List.nil_append, occurrences_cons, occurrences_cons, if_pos hclose,
                if_neg hother]
              rfl
        | succ depth =>
            refine (ih depth).cons (Nat.succ_pos _) ?_
            rw [if_neg hother, if_pos hclose, Nat.add_zero]
      · refine (ih depth).cons (Nat.succ_pos depth) ?_
        rw [if_neg hopen, if_neg hclose]

end

/-! ## A search from an opening bracket -/

/-- The bytes with which a literal or a comment can start. -/
def literalStarts : Bytes := [singleQuote, doubleQuote, backtick, slash]

theorem neverOpens_of_notMem {b : UInt8} (hb : b ∉ literalStarts) : NeverOpens b := by
  intro prev tail
  simp only [literalStarts, List.mem_cons, List.not_mem_nil, or_false, not_or] at hb
  rcases hb with ⟨hsingle, hdouble, hbacktick, hslash⟩
  rw [Literal.opened?, if_neg hbacktick, Literal.plain?, if_neg (not_or.mpr ⟨hsingle, hdouble⟩),
    if_neg hslash]

section

variable {src : Bytes} {start : Nat} {opening closing : UInt8}

theorem exists_codeBytes_eq_cons (hopening : opening ∉ literalStarts)
    (hbyte : src[start]? = some opening) :
    ∃ code, codeBytes start (src.drop start) = ⟨start, opening⟩ :: code := by
  rw [codeBytes_eq_codeAfter, drop_eq_cons_of_getElem? hbyte, codeAfter,
    neverOpens_of_notMem hopening]
  exact ⟨_, rfl⟩

/-- Up to a byte before which the search has not ended, more brackets open than
close. -/
theorem StaysOpen.codeCount_lt (hdistinct : opening ≠ closing) {front after : List CodeByte}
    {place : Nat} {b : UInt8}
    (hcode : codeBytes start (src.drop start) = ⟨start, opening⟩ :: (front ++ after))
    (hopen : StaysOpen opening closing 1 front) (hmem : ⟨place, b⟩ ∈ ⟨start, opening⟩ :: front) :
    codeCount src start place closing < codeCount src start place opening := by
  have hfirst : ∀ code, occurrences closing (⟨start, opening⟩ :: code) = occurrences closing code ∧
      occurrences opening (⟨start, opening⟩ :: code) = occurrences opening code + 1 := by
    intro code
    rw [occurrences_cons, occurrences_cons, if_pos rfl, if_neg hdistinct]
    exact ⟨rfl, rfl⟩
  have hlt : ∀ before later, ⟨start, opening⟩ :: front = before ++ ⟨place, b⟩ :: later →
      occurrences closing (before ++ [⟨place, b⟩]) < occurrences opening (before ++ [⟨place, b⟩]) := by
    intro before later hsplit
    cases before with
    | nil =>
        rw [(List.cons.inj hsplit).1.symm, List.nil_append, (hfirst []).1, (hfirst []).2]
        exact Nat.one_pos
    | cons first before =>
        rw [List.cons_append, List.cons.injEq] at hsplit
        rcases hsplit with ⟨rfl, hfront⟩
        have hprefix : before ++ [⟨place, b⟩] <+: front :=
          ⟨later, by rw [hfront, List.append_assoc, List.singleton_append]⟩
        have hless := hopen _ hprefix
        rw [List.cons_append, (hfirst _).1, (hfirst _).2]
        omega
  rcases List.append_of_mem hmem with ⟨before, later, hsplit⟩
  have hhere : codeBytes start (src.drop start) = before ++ ⟨place, b⟩ :: (later ++ after) := by
    rw [hcode, ← List.cons_append, hsplit, List.append_assoc, List.cons_append]
  have hcount := codeCount_eq_occurrences hhere
  rw [hcount, hcount]
  exact hlt before later hsplit

/-- What a search from an opening bracket ends with. -/
theorem closingFrom_cases (hdistinct : opening ≠ closing) (hopening : opening ∉ literalStarts)
    (hbyte : src[start]? = some opening) :
    (∃ place, closingFrom src start opening closing = .found place ∧
        FirstBalanced src start opening closing place ∧ src[place]? = some closing ∧
        ∀ earlier b, earlier < place → IsCodeAt src start earlier b →
          codeCount src start earlier closing < codeCount src start earlier opening) ∨
      closingFrom src start opening closing = .unclosed ∧
        ∀ place b, IsCodeAt src start place b →
          codeCount src start place closing < codeCount src start place opening := by
  rcases exists_codeBytes_eq_cons hopening hbyte with ⟨code, hcode⟩
  have hends := closingIn_countEnds hdistinct 0 code
  have hsearch : closingFrom src start opening closing = closingIn opening closing 1 code := by
    rw [closingFrom, hcode, closingIn, if_pos rfl]
  rw [Nat.zero_add, ← hsearch] at hends
  generalize closingFrom src start opening closing = result at hends ⊢
  cases hends with
  | @found before after c hsplit hclosing hopen hcount =>
      left
      rw [hsplit] at hcode
      have hhere : codeBytes start (src.drop start) =
          (⟨start, opening⟩ :: before) ++ c :: after := hcode
      have hc : IsCodeAt src start c.offset c.byte := by
        rw [← mem_codeBytes_drop_iff, hhere]
        exact List.mem_append_right _ List.mem_cons_self
      have hless : ∀ earlier b, earlier < c.offset → IsCodeAt src start earlier b →
          codeCount src start earlier closing < codeCount src start earlier opening :=
        fun earlier b hlt hearlier =>
          hopen.codeCount_lt hdistinct hcode ((mem_before_iff hhere).mpr ⟨hlt, hearlier⟩)
      refine ⟨c.offset, rfl, ⟨⟨c.byte, hc⟩, ?_, ?_⟩, hclosing ▸ hc.2.1, hless⟩
      · rw [codeCount_eq_occurrences hhere, codeCount_eq_occurrences hhere, List.cons_append,
          occurrences_cons, occurrences_cons, if_pos rfl, if_neg hdistinct]
        omega
      · exact fun earlier b hlt hearlier => (hless earlier b hlt hearlier).ne
  | unclosed hopen =>
      right
      refine ⟨rfl, ?_⟩
      intro place b hplace
      rw [← mem_codeBytes_drop_iff, hcode] at hplace
      exact hopen.codeCount_lt hdistinct (by rw [hcode, List.append_nil]) hplace

end

/-- A search from an opening bracket finds the first code byte up to which as many
brackets close as open, if there is one, and never meets a closing bracket too
many.  What it finds is a closing bracket, and up to each code byte before it
more open than close. -/
theorem closingFrom_ends_at_first_balance (src : Bytes) (start : Nat) (opening closing : UInt8)
    (hdistinct : opening ≠ closing) (hopening : opening ∉ literalStarts)
    (hbyte : src[start]? = some opening) :
    closingFrom src start opening closing ≠ .unopened ∧
      (∀ place, closingFrom src start opening closing = .found place ↔
        FirstBalanced src start opening closing place) ∧
      (∀ place, FirstBalanced src start opening closing place →
        src[place]? = some closing ∧
          ∀ earlier b, earlier < place → IsCodeAt src start earlier b →
            codeCount src start earlier closing < codeCount src start earlier opening) ∧
      (closingFrom src start opening closing = .unclosed ↔
        ∀ place, ¬ FirstBalanced src start opening closing place) := by
  rcases closingFrom_cases hdistinct hopening hbyte with
    ⟨found, hsearch, hfirst, hclosing, hless⟩ | ⟨hsearch, hless⟩
  · have hplace : ∀ place, found = place ↔ FirstBalanced src start opening closing place := by
      intro place
      constructor
      · rintro rfl
        exact hfirst
      · exact hfirst.unique
    rw [hsearch]
    refine ⟨by simp, fun place => ?_, fun place hbalanced => ?_, ?_⟩
    · rw [Closing.found.injEq, hplace]
    · rw [← (hplace place).mpr hbalanced]
      exact ⟨hclosing, hless⟩
    · exact ⟨fun hunclosed => (by cases hunclosed), fun hnone => absurd hfirst (hnone found)⟩
  · have hnone : ∀ place, ¬ FirstBalanced src start opening closing place := by
      intro place hbalanced
      rcases hbalanced.code with ⟨b, hcode⟩
      exact (hless place b hcode).ne hbalanced.balanced
    rw [hsearch]
    refine ⟨by simp, fun place => ?_, fun place hbalanced => absurd hbalanced (hnone place), ?_⟩
    · exact ⟨fun hfound => (by cases hfound), fun hbalanced => absurd hbalanced (hnone place)⟩
    · exact ⟨fun _ => hnone, fun _ => rfl⟩

/-- A regex and a string in the arguments hold parentheses that count for nothing. -/
theorem closingFrom_ends_at_first_balance_arguments :
    openParen ≠ closeParen ∧ openParen ∉ literalStarts ∧
      (ofString "f((/)/)\")\")")[1]? = some openParen ∧
      closingFrom (ofString "f((/)/)\")\")") 1 openParen closeParen = .found 10 ∧
      FirstBalanced (ofString "f((/)/)\")\")") 1 openParen closeParen 10 := by
  have hbyte : (ofString "f((/)/)\")\")")[1]? = some openParen := by
    decide +kernel
  have hfound : closingFrom (ofString "f((/)/)\")\")") 1 openParen closeParen = .found 10 := by
    decide +kernel
  have hends := closingFrom_ends_at_first_balance (ofString "f((/)/)\")\")") 1 openParen closeParen
    (by decide) (by decide) hbyte
  exact ⟨by decide, by decide, hbyte, hfound, (hends.2.1 10).mp hfound⟩

end LogSweep
