import LogSweep.Proofs.CheckedLiterals
import LogSweep.Proofs.ParenthesisPairing

/-!
# Brackets by offsets

The loops over the code bytes of a text read the same bytes as the scan of its
rest, so the table is the same, and so is the answer of a search.  A search fails
only at a closing bracket that closes nothing.
-/

namespace LogSweep

open Byte Bytes

/-- The answer of a search, for a program that takes it for granted that the first
bracket is an opening one. -/
def Closing.answer : Closing → Except Fault (Option Nat)
  | .found offset => .ok (some offset)
  | .unclosed => .ok none
  | .unopened => .error .unopened

namespace Bytes

section

variable {src : Bytes} {i : Nat} {b : UInt8} {tail : Bytes} {prev : Option UInt8}

theorem drop_spanFrom_stop (hrest : src.drop i = b :: tail) (literal : Literal) :
    src.drop (literal.spanFrom i).stop = tail.drop literal.more := by
  rw [Literal.spanFrom, ← List.drop_drop, hrest, Literal.length, List.drop_succ_cons]

/-! ## The table -/

theorem codeUpFrom_of_length_le {found : Array CodeByte} (hle : src.length ≤ i) :
    src.codeUpFrom prev i found = .ok found := by
  rw [codeUpFrom, if_neg (Nat.not_lt.mpr hle)]
  rfl

theorem codeUpFrom_of_drop {found : Array CodeByte} (hrest : src.drop i = b :: tail) :
    src.codeUpFrom prev i found =
      match Literal.opened? prev b tail with
      | some literal => src.codeUpFrom (literal.lastCode prev) (literal.spanFrom i).stop found
      | none => src.codeUpFrom (lastCodeAfter b prev) (i + 1) (found.push ⟨i, b⟩) := by
  conv => lhs; rw [codeUpFrom]
  rw [if_pos (lt_length_of_drop hrest), literalAt?_of_drop hrest, byteAt_of_drop hrest]
  cases hopened : Literal.opened? prev b tail with
  | none => rfl
  | some literal =>
      simp only [bind, Except.bind, Option.map_some, if_pos (literal.lt_spanFrom_stop i)]
      rfl

theorem codeUpFrom_eq (src : Bytes) (prev : Option UInt8) (i : Nat) (found : Array CodeByte) :
    src.codeUpFrom prev i found = .ok (codeFrom prev i found (src.drop i)) := by
  induction hleft : src.length - i using Nat.strong_induction_on generalizing prev i found with
  | _ left ih =>
      cases hrest : src.drop i with
      | nil =>
          rw [codeUpFrom_of_length_le (List.drop_eq_nil_iff.mp hrest), codeFrom]
      | cons b tail =>
          have hlt := lt_length_of_drop hrest
          rw [codeUpFrom_of_drop hrest, codeFrom]
          cases hopened : Literal.opened? prev b tail with
          | some literal =>
              have hstop := literal.lt_spanFrom_stop i
              simp only
              rw [ih _ (by omega) _ _ _ rfl, drop_spanFrom_stop hrest]
              rfl
          | none =>
              simp only
              rw [ih _ (by omega) _ _ _ rfl, (drop_eq_cons_iff.mp hrest).2]

theorem parenTable_eq (src : Bytes) : src.parenTable = .ok (.ofText src) := by
  rw [parenTable, codeUpFrom_eq]
  rfl

/-! ## The search -/

variable {opening closing : UInt8} {depth : Nat}

theorem closingUpFrom?_of_length_le (hle : src.length ≤ i) :
    src.closingUpFrom? opening closing depth prev i = .ok none := by
  rw [closingUpFrom?, if_neg (Nat.not_lt.mpr hle)]
  rfl

theorem closingUpFrom?_of_literal {literal : Literal} (hrest : src.drop i = b :: tail)
    (hopened : Literal.opened? prev b tail = some literal) :
    src.closingUpFrom? opening closing depth prev i =
      src.closingUpFrom? opening closing depth (literal.lastCode prev)
        (literal.spanFrom i).stop := by
  conv => lhs; rw [closingUpFrom?]
  rw [if_pos (lt_length_of_drop hrest), literalAt?_of_drop hrest, hopened]
  simp only [bind, Except.bind, Option.map_some, if_pos (literal.lt_spanFrom_stop i)]
  rfl

theorem closingUpFrom?_of_code (hrest : src.drop i = b :: tail)
    (hopened : Literal.opened? prev b tail = none) :
    src.closingUpFrom? opening closing depth prev i =
      if b = opening then
        src.closingUpFrom? opening closing (depth + 1) (lastCodeAfter b prev) (i + 1)
      else if b = closing then
        match depth with
        | 0 => .error .unopened
        | 1 => .ok (some i)
        | depth + 2 =>
          src.closingUpFrom? opening closing (depth + 1) (lastCodeAfter b prev) (i + 1)
      else src.closingUpFrom? opening closing depth (lastCodeAfter b prev) (i + 1) := by
  conv => lhs; rw [closingUpFrom?]
  rw [if_pos (lt_length_of_drop hrest), literalAt?_of_drop hrest, byteAt_of_drop hrest, hopened]
  rcases depth with - | - | depth <;> rfl

theorem closingUpFrom?_eq (src : Bytes) (opening closing : UInt8) (depth : Nat)
    (prev : Option UInt8) (i : Nat) :
    src.closingUpFrom? opening closing depth prev i =
      (closingIn opening closing depth (codeAfter prev i (src.drop i))).answer := by
  induction hleft : src.length - i using Nat.strong_induction_on generalizing depth prev i with
  | _ left ih =>
      cases hrest : src.drop i with
      | nil =>
          rw [closingUpFrom?_of_length_le (List.drop_eq_nil_iff.mp hrest), codeAfter]
          rfl
      | cons b tail =>
          have hlt := lt_length_of_drop hrest
          rw [codeAfter]
          cases hopened : Literal.opened? prev b tail with
          | some literal =>
              have hstop := literal.lt_spanFrom_stop i
              rw [closingUpFrom?_of_literal hrest hopened, ih _ (by omega) _ _ _ rfl,
                drop_spanFrom_stop hrest]
              rfl
          | none =>
              have hnext : ∀ depth, src.closingUpFrom? opening closing depth
                  (lastCodeAfter b prev) (i + 1) = (closingIn opening closing depth
                    (codeAfter (lastCodeAfter b prev) (i + 1) tail)).answer := by
                intro depth
                rw [ih _ (by omega) depth _ _ rfl, (drop_eq_cons_iff.mp hrest).2]
              rw [closingUpFrom?_of_code hrest hopened, closingIn.eq_def]
              simp only [hnext]
              split_ifs
              · rfl
              · rcases depth with - | - | depth <;> rfl
              · rfl

theorem closingAt?_eq (src : Bytes) (start : Nat) (opening closing : UInt8) :
    src.closingAt? start opening closing = (closingFrom src start opening closing).answer := by
  rw [closingAt?, closingUpFrom?_eq, closingFrom, codeBytes_eq_codeAfter]

end

end Bytes

/-- Where a parenthesis opens a call, looking it up and searching for its partner
without a look at the table give the same. -/
theorem ParenTable.closingOf_eq (table : ParenTable) (src : Bytes) (opening : Nat) :
    table.closingOf opening (src.drop opening) =
      match table.get? opening with
      | some closing => .ok closing
      | none => src.closingAt? opening openParen closeParen := by
  rw [ParenTable.closingOf, Bytes.closingAt?_eq, closingFrom]
  cases table.get? opening with
  | some closing => rfl
  | none =>
      cases closingIn openParen closeParen 0 (codeBytes opening (src.drop opening)) <;> rfl

end LogSweep
