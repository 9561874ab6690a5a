import LogSweep.Bracket
import LogSweep.Proofs.CodeBytes

/-!
# The two searches for a closing parenthesis agree

The pass from the end keeps the closing parentheses that wait for a partner.
The one at depth `n` of that stack is where a count that starts with `n + 1`
open parentheses comes down to zero, so the partner that the pass notes for an
opening parenthesis is the one that counting from it finds.  That both read the
same code bytes is `codeBytes_resume`.
-/

namespace LogSweep

open Byte Bytes

/-- The answer of a search for the partner of an opening parenthesis. -/
def Closing.ofPartner : Option Nat → Closing
  | some offset => .found offset
  | none => .unclosed

theorem Closing.ofPartner_ne_unopened (partner : Option Nat) :
    Closing.ofPartner partner ≠ .unopened := by
  cases partner <;> simp [Closing.ofPartner]

theorem Closing.ofPartner_injective : Function.Injective Closing.ofPartner := by
  intro partner other hsame
  cases partner <;> cases other <;> simp_all [Closing.ofPartner]

/-- The parentheses of a list of code bytes. -/
def Pairing.ofCode (code : List CodeByte) : Pairing :=
  code.foldr Pairing.add ⟨[], []⟩

theorem Pairing.ofText_eq_ofCode (src : Bytes) :
    Pairing.ofText src = Pairing.ofCode (codeBytes 0 src) :=
  rfl

theorem Pairing.ofCode_cons (c : CodeByte) (code : List CodeByte) :
    Pairing.ofCode (c :: code) = Pairing.add c (Pairing.ofCode code) :=
  rfl

/-- The stack of the pass against the counter of the search: with `depth + 1`
parentheses open, the entry at `depth` closes the outermost. -/
theorem closingIn_eq_closers (depth : Nat) (code : List CodeByte) :
    closingIn openParen closeParen (depth + 1) code =
      Closing.ofPartner (Pairing.ofCode code).closers[depth]? := by
  induction code generalizing depth with
  | nil =>
      rfl
  | cons c code ih =>
      rw [Pairing.ofCode_cons, closingIn.eq_def, Pairing.add]
      simp only
      split_ifs with hopen hclose
      · rw [ih (depth + 1)]
        simp
      · cases depth with
        | zero => rfl
        | succ depth => simpa using ih depth
      · exact ih depth

theorem closingIn_openParen {c : CodeByte} (hopen : c.byte = openParen)
    (code : List CodeByte) :
    closingIn openParen closeParen 0 (c :: code) =
      Closing.ofPartner (Pairing.ofCode code).closers.head? := by
  rw [closingIn, if_pos hopen, closingIn_eq_closers 0 code,
    List.head?_eq_getElem?]

theorem Pairing.mem_pairs_ofCode {code : List CodeByte}
    {opening : Nat} {partner : Option Nat} :
    (opening, partner) ∈ (Pairing.ofCode code).pairs ↔
      ∃ before after, ∃ c : CodeByte, code = before ++ c :: after ∧
        c.byte = openParen ∧ c.offset = opening ∧
        (Pairing.ofCode after).closers.head? = partner := by
  induction code with
  | nil =>
      simp [Pairing.ofCode]
  | cons first code ih =>
      have hlater :
          (∃ before after, ∃ c : CodeByte, first :: code = before ++ c :: after ∧
            c.byte = openParen ∧ c.offset = opening ∧
            (Pairing.ofCode after).closers.head? = partner) ↔
          (first.byte = openParen ∧ first.offset = opening ∧
            (Pairing.ofCode code).closers.head? = partner) ∨
          (opening, partner) ∈ (Pairing.ofCode code).pairs := by
        rw [ih]
        constructor
        · rintro ⟨before, after, c, hcode, hc⟩
          cases before with
          | nil =>
              simp only [List.nil_append, List.cons.injEq] at hcode
              obtain ⟨rfl, rfl⟩ := hcode
              exact Or.inl hc
          | cons head before =>
              simp only [List.cons_append, List.cons.injEq] at hcode
              exact Or.inr ⟨before, after, c, hcode.2, hc⟩
        · rintro (hfirst | ⟨before, after, c, rfl, hc⟩)
          · exact ⟨[], code, first, rfl, hfirst⟩
          · exact ⟨first :: before, after, c, rfl, hc⟩
      rw [hlater, Pairing.ofCode_cons, Pairing.add]
      split_ifs with hopen hclose
      · simp [hopen, Prod.ext_iff, eq_comm]
      · simp [hopen]
      · simp [hopen]

theorem openParen_isSolid : IsSolid openParen := by
  unfold IsSolid
  decide

/-- A pair of the text: its first offset holds an opening parenthesis, and
counting from there finds its second. -/
theorem Pairing.search_of_mem_pairs {src : Bytes} {opening : Nat}
    {partner : Option Nat}
    (hmem : (opening, partner) ∈ (Pairing.ofText src).pairs) :
    src[opening]? = some openParen ∧
      closingFrom src opening openParen closeParen =
        Closing.ofPartner partner := by
  rw [Pairing.ofText_eq_ofCode, Pairing.mem_pairs_ofCode] at hmem
  obtain ⟨before, after, c, hcode, hopen, rfl, rfl⟩ := hmem
  have hcodeAfter : codeAfter none 0 src = before ++ c :: after := by
    rw [← codeBytes_eq_codeAfter]
    exact hcode
  constructor
  · have hc : c ∈ codeAfter none 0 src := by
      simp [hcodeAfter]
    obtain ⟨skipped, hoffset, hbyte⟩ := exists_skipped_of_mem_codeAfter hc
    rw [Nat.zero_add] at hoffset
    rw [hoffset, hbyte, hopen]
  · have hsolid : IsSolid c.byte := hopen ▸ openParen_isSolid
    have hresume := codeBytes_resume hcodeAfter hsolid
    rw [Nat.sub_zero] at hresume
    rw [closingFrom, hresume, closingIn_openParen hopen]

theorem closingIn_found {opening closing : UInt8} {depth offset : Nat}
    {code : List CodeByte}
    (hfound : closingIn opening closing depth code = .found offset) :
    ∃ c ∈ code, c.offset = offset ∧ c.byte = closing := by
  induction code generalizing depth with
  | nil =>
      simp [closingIn] at hfound
  | cons c code ih =>
      have hlater : (∃ later ∈ code, later.offset = offset ∧
          later.byte = closing) → ∃ later ∈ c :: code,
          later.offset = offset ∧ later.byte = closing :=
        fun ⟨later, hmem, hlater⟩ => ⟨later, List.mem_cons_of_mem c hmem, hlater⟩
      rw [closingIn.eq_def] at hfound
      simp only at hfound
      split_ifs at hfound with hopen hclose
      · exact hlater (ih hfound)
      · split at hfound
        next => simp at hfound
        next =>
          simp only [Closing.found.injEq] at hfound
          exact ⟨c, by simp, hfound, hclose⟩
        next => exact hlater (ih hfound)
      · exact hlater (ih hfound)

theorem closingFrom_found {src : Bytes} {start offset : Nat}
    {opening closing : UInt8}
    (hfound : closingFrom src start opening closing = .found offset) :
    start ≤ offset ∧ src[offset]? = some closing := by
  rw [closingFrom, codeBytes_eq_codeAfter] at hfound
  obtain ⟨c, hmem, rfl, rfl⟩ := closingIn_found hfound
  obtain ⟨skipped, hoffset, hbyte⟩ := exists_skipped_of_mem_codeAfter hmem
  refine ⟨by omega, ?_⟩
  rw [hoffset, ← hbyte, List.getElem?_drop]

/-! ## The table -/

theorem Pairing.ofText_pairwise (src : Bytes) :
    (Pairing.ofText src).pairs.Pairwise
      (fun first second => first.1 < second.1) := by
  rw [Pairing.ofText_eq_ofCode, codeBytes_eq_codeAfter]
  have hsorted := codeAfter_pairwise none 0 src
  generalize codeAfter none 0 src = code at hsorted
  induction code with
  | nil =>
      exact .nil
  | cons c code ih =>
      obtain ⟨hfirst, hothers⟩ := List.pairwise_cons.mp hsorted
      rw [Pairing.ofCode_cons, Pairing.add]
      split_ifs with hopen hclose
      · refine .cons (fun pair hpair => ?_) (ih hothers)
        obtain ⟨before, after, later, rfl, -, hoffset, -⟩ :=
          Pairing.mem_pairs_ofCode.mp hpair
        have hlater := hfirst later (by simp)
        rw [← hoffset]
        exact hlater
      · exact ih hothers
      · exact ih hothers

theorem ParenTable.get?_ofText_eq_some_iff {src : Bytes} {opening : Nat}
    {partner : Option Nat} :
    (ParenTable.ofText src).get? opening = some partner ↔
      (opening, partner) ∈ (Pairing.ofText src).pairs := by
  have hdistinct : (Pairing.ofText src).pairs.Pairwise
      (fun first second => ¬ compare first.1 second.1 = .eq) :=
    (Pairing.ofText_pairwise src).imp (fun hlt => by
      simp only [compare_eq_iff_eq]
      omega)
  have hget : ∀ found, (opening, found) ∈ (Pairing.ofText src).pairs →
      (ParenTable.ofText src).get? opening = some found := by
    intro found hfound
    rw [Std.TreeMap.get?_eq_getElem?]
    exact Std.TreeMap.getElem?_ofList_of_mem (by simp) hdistinct hfound
  constructor
  · intro hsome
    have hcontains : opening ∈ ParenTable.ofText src := by
      rw [Std.TreeMap.mem_iff_isSome_getElem?, ← Std.TreeMap.get?_eq_getElem?,
        hsome]
      rfl
    rw [ParenTable.ofText, Std.TreeMap.mem_ofList] at hcontains
    obtain ⟨⟨key, found⟩, hfound, rfl⟩ : ∃ pair ∈ (Pairing.ofText src).pairs,
        pair.1 = opening := by simpa using hcontains
    rw [hget found hfound] at hsome
    simp only [Option.some.injEq] at hsome
    exact hsome ▸ hfound
  · exact hget partner

/-- Whether the table holds the parenthesis or not, what it answers is the
result of counting, which then meets no closing parenthesis too many. -/
theorem ParenTable.closingOf_ofText {src : Bytes} {opening : Nat}
    (hopen : src[opening]? = some openParen) :
    ∃ partner,
      (ParenTable.ofText src).closingOf opening (src.drop opening) =
        .ok partner ∧
      closingFrom src opening openParen closeParen =
        Closing.ofPartner partner := by
  unfold ParenTable.closingOf
  cases hget : (ParenTable.ofText src).get? opening with
  | some partner =>
      have hmem := ParenTable.get?_ofText_eq_some_iff.mp hget
      exact ⟨partner, rfl, (Pairing.search_of_mem_pairs hmem).2⟩
  | none =>
      have hcode : codeBytes opening (src.drop opening) =
          ⟨opening, openParen⟩ ::
            codeAfter (some openParen) (opening + 1) (src.drop (opening + 1)) := by
        rw [codeBytes_eq_codeAfter, drop_eq_cons_of_getElem? hopen,
          codeAfter_solid openParen_isSolid]
      have hsearch : closingFrom src opening openParen closeParen =
          Closing.ofPartner (Pairing.ofCode (codeAfter (some openParen)
            (opening + 1) (src.drop (opening + 1)))).closers.head? := by
        rw [closingFrom, hcode, closingIn_openParen rfl]
      refine ⟨_, ?_, hsearch⟩
      rw [closingFrom] at hsearch
      simp only [hsearch]
      cases (Pairing.ofCode (codeAfter (some openParen) (opening + 1)
        (src.drop (opening + 1)))).closers.head? <;> rfl

end LogSweep
