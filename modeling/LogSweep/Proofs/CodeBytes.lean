import LogSweep.Proofs.LiteralExtent

/-!
# Reading the code of a text

The code bytes of a text come in the order of their offsets, each is a byte of
the text, and reading can start again at any of them: a byte that can open no
literal and is no white space leaves the same last code byte behind, whatever
stood before it.
-/

namespace LogSweep

open Byte Bytes

/-- The code bytes of the rest of a text, which starts at `offset` after the
code byte `prev`, as a list. -/
def codeAfter (prev : Option UInt8) (offset : Nat) : Bytes → List CodeByte
  | [] => []
  | b :: tail =>
    match Literal.opened? prev b tail with
    | some literal =>
      codeAfter (literal.lastCode prev) (offset + literal.length)
        (tail.drop literal.more)
    | none => ⟨offset, b⟩ :: codeAfter (lastCodeAfter b prev) (offset + 1) tail
termination_by rest => rest.length
decreasing_by all_goals simp only [List.length_cons, List.length_drop]; omega

theorem codeFrom_toList (prev : Option UInt8) (offset : Nat)
    (found : Array CodeByte) (rest : Bytes) :
    (codeFrom prev offset found rest).toList =
      found.toList ++ codeAfter prev offset rest := by
  fun_induction codeFrom prev offset found rest with
  | case1 =>
      simp [codeAfter]
  | case2 prev offset found b tail literal hopened ih =>
      rw [ih]
      conv => rhs; rw [codeAfter, hopened]
  | case3 prev offset found b tail hopened ih =>
      rw [ih]
      conv => rhs; rw [codeAfter, hopened]
      simp

theorem codeBytes_eq_codeAfter (offset : Nat) (rest : Bytes) :
    codeBytes offset rest = codeAfter none offset rest := by
  simp [codeBytes, codeFrom_toList]

theorem exists_skipped_of_mem_codeAfter {prev : Option UInt8} {offset : Nat}
    {rest : Bytes} {c : CodeByte} (hmem : c ∈ codeAfter prev offset rest) :
    ∃ skipped, c.offset = offset + skipped ∧ rest[skipped]? = some c.byte := by
  fun_induction codeAfter prev offset rest with
  | case1 =>
      simp at hmem
  | case2 prev offset b tail literal hopened ih =>
      obtain ⟨skipped, hoffset, hbyte⟩ := ih hmem
      refine ⟨literal.length + skipped, by omega, ?_⟩
      have hlength : literal.length + skipped = literal.more + skipped + 1 := by
        simp only [Literal.length]
        omega
      rw [hlength, List.getElem?_cons_succ]
      simpa using hbyte
  | case3 prev offset b tail hopened ih =>
      rcases List.mem_cons.mp hmem with rfl | hlater
      · exact ⟨0, rfl, rfl⟩
      · obtain ⟨skipped, hoffset, hbyte⟩ := ih hlater
        exact ⟨skipped + 1, by omega, by simpa using hbyte⟩

theorem offset_le_of_mem_codeAfter {prev : Option UInt8} {offset : Nat}
    {rest : Bytes} {c : CodeByte} (hmem : c ∈ codeAfter prev offset rest) :
    offset ≤ c.offset := by
  obtain ⟨skipped, hoffset, -⟩ := exists_skipped_of_mem_codeAfter hmem
  omega

theorem codeAfter_pairwise (prev : Option UInt8) (offset : Nat)
    (rest : Bytes) :
    (codeAfter prev offset rest).Pairwise
      (fun first second => first.offset < second.offset) := by
  fun_induction codeAfter prev offset rest with
  | case1 =>
      exact .nil
  | case2 prev offset b tail literal hopened ih =>
      exact ih
  | case3 prev offset b tail hopened ih =>
      refine .cons (fun c hc => ?_) ih
      have hle := offset_le_of_mem_codeAfter hc
      show offset < c.offset
      omega

/-- A byte that opens no literal and is no white space: code wherever it is
read as code, with the same effect on what follows. -/
def IsSolid (b : UInt8) : Prop :=
  b ≠ singleQuote ∧ b ≠ doubleQuote ∧ b ≠ backtick ∧ b ≠ slash ∧
    isWhitespace b = false

theorem IsSolid.opened?_eq_none {b : UInt8} (hsolid : IsSolid b)
    (prev : Option UInt8) (tail : Bytes) :
    Literal.opened? prev b tail = none := by
  obtain ⟨hsingle, hdouble, hbacktick, hslash, -⟩ := hsolid
  simp [Literal.opened?, Literal.plain?, hsingle, hdouble, hbacktick, hslash]

theorem codeAfter_solid {b : UInt8} (hsolid : IsSolid b)
    (prev : Option UInt8) (offset : Nat) (tail : Bytes) :
    codeAfter prev offset (b :: tail) =
      ⟨offset, b⟩ :: codeAfter (some b) (offset + 1) tail := by
  rw [codeAfter, hsolid.opened?_eq_none prev tail]
  simp [lastCodeAfter, hsolid.2.2.2.2]

/-- Reading as if nothing stood before a solid code byte finds the code bytes
that reading from further ahead finds from there on. -/
theorem codeBytes_resume {prev : Option UInt8} {offset : Nat} {rest : Bytes}
    {before after : List CodeByte} {c : CodeByte}
    (hcode : codeAfter prev offset rest = before ++ c :: after)
    (hsolid : IsSolid c.byte) :
    codeBytes c.offset (rest.drop (c.offset - offset)) = c :: after := by
  rw [codeBytes_eq_codeAfter]
  fun_induction codeAfter prev offset rest generalizing before with
  | case1 =>
      simp at hcode
  | case2 prev offset b tail literal hopened ih =>
      have hmem : c ∈ codeAfter (literal.lastCode prev)
          (offset + literal.length) (tail.drop literal.more) := by
        simp [hcode]
      have hle := offset_le_of_mem_codeAfter hmem
      have hskip : c.offset - offset =
          literal.more + (c.offset - (offset + literal.length)) + 1 := by
        simp only [Literal.length] at hle ⊢
        omega
      rw [hskip, List.drop_succ_cons, ← List.drop_drop]
      exact ih hcode
  | case3 prev offset b tail hopened ih =>
      cases before with
      | nil =>
          simp only [List.nil_append, List.cons.injEq] at hcode
          obtain ⟨rfl, rfl⟩ := hcode
          rw [Nat.sub_self, List.drop_zero, codeAfter_solid hsolid]
          simp [lastCodeAfter, hsolid.2.2.2.2]
      | cons first before =>
          simp only [List.cons_append, List.cons.injEq] at hcode
          have hmem : c ∈ codeAfter (lastCodeAfter b prev) (offset + 1) tail := by
            simp [hcode.2]
          have hle := offset_le_of_mem_codeAfter hmem
          have hskip : c.offset - offset = c.offset - (offset + 1) + 1 := by
            omega
          rw [hskip, List.drop_succ_cons]
          exact ih hcode.2

end LogSweep
