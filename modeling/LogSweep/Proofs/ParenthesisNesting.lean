import LogSweep.Proofs.PairingPass

/-!
# Parentheses nest

The code bytes of a text are its bytes outside the literals and comments that
the pass meets, so the table has an entry for each opening parenthesis there and
for nothing else.  That its pairs lie apart or one inside the other is kept
while they are read from the end: a closing parenthesis that still waits has
behind it, or inside pairs before it, whatever was read so far.
-/

namespace LogSweep

open Byte Bytes

/-! ## Outside literals -/

/-- No literal or comment that the pass meets holds the byte at this offset. -/
def OutsideLiterals (src : Bytes) (offset : Nat) : Prop :=
  ∀ prev start literal, ReadsCode src prev start →
    Literal.openedAt? src start prev = some literal →
      offset < start ∨ start + literal.length ≤ offset

namespace ReadsCode

variable {src : Bytes} {prev : Option UInt8} {offset : Nat}

/-- The code bytes of a text are those before the pass and those that it has
still to find. -/
theorem exists_codeAfter_eq (hreads : ReadsCode src prev offset) :
    ∃ before, codeAfter none 0 src = before ++ codeAfter prev offset (src.drop offset) ∧
      ∀ c ∈ before, c.offset < offset := by
  induction hreads with
  | start => exact ⟨[], by rw [List.drop_zero, List.nil_append], by simp⟩
  | @literal prev offset b tail literal _ hrest hopened ih =>
      rcases ih with ⟨before, hcode, hbefore⟩
      have hlater : src.drop (offset + literal.length) = tail.drop literal.more :=
        drop_behind hrest literal.more
      refine ⟨before, ?_, ?_⟩
      · rw [hcode, hrest, codeAfter, hopened, hlater]
      · intro c hc
        have hlt := hbefore c hc
        omega
  | @byte prev offset b tail _ hrest hopened ih =>
      rcases ih with ⟨before, hcode, hbefore⟩
      have hlater : src.drop (offset + 1) = tail := drop_behind hrest 0
      refine ⟨before ++ [⟨offset, b⟩], ?_, ?_⟩
      · rw [hcode, hrest, codeAfter, hopened, hlater]
        simp
      · intro c hc
        rcases List.mem_append.mp hc with hc | hc
        · have hlt := hbefore c hc
          omega
        · rw [List.mem_singleton.mp hc]
          exact Nat.lt_succ_self offset

/-- The pass finds every byte outside literals that it has still before it. -/
theorem mem_codeAfter {rest : Bytes} {place : Nat} {b : UInt8}
    (hreads : ReadsCode src prev offset) (hrest : src.drop offset = rest)
    (hplace : offset ≤ place) (hbyte : src[place]? = some b)
    (houtside : OutsideLiterals src place) :
    ⟨place, b⟩ ∈ codeAfter prev offset rest := by
  fun_induction codeAfter prev offset rest with
  | case1 prev offset =>
      have hlength := List.drop_eq_nil_iff.mp hrest
      have hlt := (List.getElem?_eq_some_iff.mp hbyte).1
      omega
  | case2 prev offset first tail literal hopened ih =>
      have hlater : src.drop (offset + literal.length) = tail.drop literal.more :=
        drop_behind hrest literal.more
      have hmet : Literal.openedAt? src offset prev = some literal :=
        (Literal.openedAt?_of_drop hrest prev).trans hopened
      have hbehind : offset + literal.length ≤ place := by
        rcases houtside prev offset literal hreads hmet with hbefore | hbehind
        · omega
        · exact hbehind
      exact ih (hreads.literal hrest hopened) hlater hbehind
  | case3 prev offset first tail hopened ih =>
      rcases Nat.eq_or_lt_of_le hplace with rfl | hlt
      · have hfirst : src[offset]? = some first := by
          rw [← Nat.add_zero offset, ← List.getElem?_drop, hrest]
          rfl
        have hsame := Option.some.inj (hbyte.symm.trans hfirst)
        rw [hsame]
        exact List.mem_cons_self
      · have hlater : src.drop (offset + 1) = tail := drop_behind hrest 0
        exact List.mem_cons_of_mem _ (ih (hreads.byte hrest hopened) hlater hlt)

end ReadsCode

/-- The code bytes of a text are its bytes outside literals. -/
theorem mem_codeBytes_iff {src : Bytes} {place : Nat} {b : UInt8} :
    ⟨place, b⟩ ∈ codeBytes 0 src ↔ src[place]? = some b ∧ OutsideLiterals src place := by
  rw [codeBytes_eq_codeAfter]
  constructor
  · intro hmem
    constructor
    · rcases exists_skipped_of_mem_codeAfter hmem with ⟨skipped, hplace, hbyte⟩
      rw [Nat.zero_add] at hplace
      rw [← hbyte, ← hplace]
    · intro prev start literal hreads hmet
      rcases Literal.exists_of_openedAt? hmet with ⟨first, tail, hrest, hopened⟩
      rcases hreads.exists_codeAfter_eq with ⟨before, hcode, hbefore⟩
      rw [hcode] at hmem
      rcases List.mem_append.mp hmem with hmem | hmem
      · exact Or.inl (hbefore _ hmem)
      · rw [hrest, codeAfter, hopened] at hmem
        exact Or.inr (offset_le_of_mem_codeAfter hmem)
  · rintro ⟨hbyte, houtside⟩
    exact ReadsCode.start.mem_codeAfter rfl (Nat.zero_le place) hbyte houtside

/-! ## Pairs -/

/-- The pairs found from the end of a text so far, and the closing parentheses
that wait for a partner before it.  No pair that starts before a waiting one
reaches beyond it. -/
structure Pairing.Nests (code : List CodeByte) (pairing : Pairing) : Prop where
  waiting : ∀ closing ∈ pairing.closers, ⟨closing, closeParen⟩ ∈ code
  increasing : pairing.closers.Pairwise (· < ·)
  opening :
    ∀ opening partner, (opening, partner) ∈ pairing.pairs → ⟨opening, openParen⟩ ∈ code
  closing :
    ∀ opening closing, (opening, some closing) ∈ pairing.pairs →
      opening < closing ∧ ⟨closing, closeParen⟩ ∈ code ∧ closing ∉ pairing.closers
  distinct :
    ∀ opening opening' closing, (opening, some closing) ∈ pairing.pairs →
      (opening', some closing) ∈ pairing.pairs → opening = opening'
  aside :
    ∀ opening partner, (opening, partner) ∈ pairing.pairs →
      ∀ later ∈ pairing.closers, opening ≤ later →
        ∃ closing, partner = some closing ∧ closing < later
  nested :
    ∀ opening closing inner partner, opening < inner →
      (opening, some closing) ∈ pairing.pairs → (inner, partner) ∈ pairing.pairs →
        closing < inner ∨ ∃ closing', partner = some closing' ∧ closing' < closing

namespace Pairing

theorem nests_nil : Nests [] ⟨[], []⟩ := by
  constructor <;> simp

section

variable {code : List CodeByte} {pairing : Pairing} {c : CodeByte}
  (hnests : pairing.Nests code)

include hnests

theorem Nests.lt_of_mem_tail {closing later : Nat}
    (hclosing : pairing.closers.head? = some closing) (hlater : later ∈ pairing.closers.tail) :
    closing < later := by
  have hincreasing := hnests.increasing
  rcases List.head?_eq_some_iff.mp hclosing with ⟨others, hclosers⟩
  rw [hclosers] at hincreasing hlater
  exact (List.pairwise_cons.mp hincreasing).1 later hlater

theorem Nests.notMem_pairs {closing : Nat} (hclosing : closing ∈ pairing.closers)
    (opening : Nat) : (opening, some closing) ∉ pairing.pairs := by
  intro hpair
  exact (hnests.closing opening closing hpair).2.2 hclosing

/-- The first closing parenthesis that waits, if any, is taken as the partner. -/
theorem Nests.addOpening (hfirst : ∀ later ∈ code, c.offset < later.offset)
    (hopen : c.byte = openParen) :
    Nests (c :: code)
      ⟨pairing.closers.tail, (c.offset, pairing.closers.head?) :: pairing.pairs⟩ := by
  have hc : c = ⟨c.offset, openParen⟩ := by
    rw [← hopen]
  have hhead : ∀ closing, some closing = pairing.closers.head? → closing ∈ pairing.closers :=
    fun closing hclosing => List.mem_of_mem_head? hclosing.symm
  constructor
  · intro closing hclosing
    exact List.mem_cons_of_mem c (hnests.waiting closing (List.mem_of_mem_tail hclosing))
  · exact hnests.increasing.tail
  · intro opening partner hpair
    rcases List.mem_cons.mp hpair with hnew | hold
    · rw [(Prod.mk.inj hnew).1, ← hc]
      exact List.mem_cons_self
    · exact List.mem_cons_of_mem c (hnests.opening opening partner hold)
  · intro opening closing hpair
    rcases List.mem_cons.mp hpair with hnew | hold
    · rcases Prod.mk.inj hnew with ⟨rfl, hclosing⟩
      have hmem := hnests.waiting closing (hhead closing hclosing)
      refine ⟨hfirst _ hmem, List.mem_cons_of_mem c hmem, ?_⟩
      intro hlater
      exact lt_irrefl _ (hnests.lt_of_mem_tail hclosing.symm hlater)
    · rcases hnests.closing opening closing hold with ⟨hlt, hmem, hnone⟩
      exact ⟨hlt, List.mem_cons_of_mem c hmem, fun hlater => hnone (List.mem_of_mem_tail hlater)⟩
  · -- the partner of the new pair waited, so no older pair has it
    intro opening opening' closing hpair hpair'
    rcases List.mem_cons.mp hpair with hnew | hold
    · rcases List.mem_cons.mp hpair' with hnew' | hold'
      · rw [(Prod.mk.inj hnew).1, (Prod.mk.inj hnew').1]
      · exact absurd hold' (hnests.notMem_pairs (hhead closing (Prod.mk.inj hnew).2) opening')
    · rcases List.mem_cons.mp hpair' with hnew' | hold'
      · exact absurd hold (hnests.notMem_pairs (hhead closing (Prod.mk.inj hnew').2) opening)
      · exact hnests.distinct opening opening' closing hold hold'
  · intro opening partner hpair later hlater hle
    rcases List.mem_cons.mp hpair with hnew | hold
    · rw [(Prod.mk.inj hnew).2]
      cases hclosers : pairing.closers.head? with
      | none =>
          rw [List.head?_eq_none_iff] at hclosers
          rw [hclosers] at hlater
          cases hlater
      | some closing => exact ⟨closing, rfl, hnests.lt_of_mem_tail hclosers hlater⟩
    · exact hnests.aside opening partner hold later (List.mem_of_mem_tail hlater) hle
  · intro opening closing inner partner hlt hpair hinner
    rcases List.mem_cons.mp hinner with hnew' | hold'
    · -- nothing starts before the new pair
      rw [(Prod.mk.inj hnew').1] at hlt
      rcases List.mem_cons.mp hpair with hnew | hold
      · rw [(Prod.mk.inj hnew).1] at hlt
        exact absurd hlt (lt_irrefl _)
      · exact absurd hlt (hfirst _ (hnests.opening opening _ hold)).asymm
    · rcases List.mem_cons.mp hpair with hnew | hold
      · have hclosing := hhead closing (Prod.mk.inj hnew).2
        rcases Nat.lt_or_ge closing inner with hbefore | hinside
        · exact Or.inl hbefore
        · exact Or.inr (hnests.aside inner partner hold' closing hclosing hinside)
      · exact hnests.nested opening closing inner partner hlt hold hold'

theorem Nests.addClosing (hfirst : ∀ later ∈ code, c.offset < later.offset)
    (hclose : c.byte = closeParen) :
    Nests (c :: code) ⟨c.offset :: pairing.closers, pairing.pairs⟩ := by
  have hc : c = ⟨c.offset, closeParen⟩ := by
    rw [← hclose]
  constructor
  · intro closing hclosing
    rcases List.mem_cons.mp hclosing with rfl | hclosing
    · rw [← hc]
      exact List.mem_cons_self
    · exact List.mem_cons_of_mem c (hnests.waiting closing hclosing)
  · apply List.Pairwise.cons _ hnests.increasing
    intro closing hclosing
    exact hfirst _ (hnests.waiting closing hclosing)
  · intro opening partner hpair
    exact List.mem_cons_of_mem c (hnests.opening opening partner hpair)
  · intro opening closing hpair
    rcases hnests.closing opening closing hpair with ⟨hlt, hmem, hnone⟩
    refine ⟨hlt, List.mem_cons_of_mem c hmem, ?_⟩
    rw [List.mem_cons, not_or]
    exact ⟨Nat.ne_of_gt (hfirst _ hmem), hnone⟩
  · exact hnests.distinct
  · intro opening partner hpair later hlater hle
    rcases List.mem_cons.mp hlater with rfl | hlater
    · exact absurd (hfirst _ (hnests.opening opening partner hpair)) (Nat.not_lt.mpr hle)
    · exact hnests.aside opening partner hpair later hlater hle
  · exact hnests.nested

theorem Nests.skip : Nests (c :: code) pairing := by
  constructor
  · exact fun closing hclosing => List.mem_cons_of_mem c (hnests.waiting closing hclosing)
  · exact hnests.increasing
  · exact fun opening partner hpair =>
      List.mem_cons_of_mem c (hnests.opening opening partner hpair)
  · intro opening closing hpair
    rcases hnests.closing opening closing hpair with ⟨hlt, hmem, hnone⟩
    exact ⟨hlt, List.mem_cons_of_mem c hmem, hnone⟩
  · exact hnests.distinct
  · exact hnests.aside
  · exact hnests.nested

end

theorem ofCode_nests {code : List CodeByte}
    (hsorted : code.Pairwise (fun first second => first.offset < second.offset)) :
    (ofCode code).Nests code := by
  induction code with
  | nil => exact nests_nil
  | cons c code ih =>
      rcases List.pairwise_cons.mp hsorted with ⟨hfirst, hlater⟩
      have hnests := ih hlater
      rw [ofCode_cons]
      unfold add
      split_ifs with hopen hclose
      · exact hnests.addOpening hfirst hopen
      · exact hnests.addClosing hfirst hclose
      · exact hnests.skip

theorem ofText_nests (src : Bytes) : (ofText src).Nests (codeBytes 0 src) := by
  rw [ofText_eq_ofCode]
  apply ofCode_nests
  rw [codeBytes_eq_codeAfter]
  exact codeAfter_pairwise none 0 src

theorem exists_mem_pairs_ofText_iff {src : Bytes} {opening : Nat} :
    (∃ partner, (opening, partner) ∈ (ofText src).pairs) ↔
      ⟨opening, openParen⟩ ∈ codeBytes 0 src := by
  constructor
  · rintro ⟨partner, hpair⟩
    exact (ofText_nests src).opening opening partner hpair
  · intro hmem
    rcases List.append_of_mem hmem with ⟨before, after, hcode⟩
    rw [ofText_eq_ofCode]
    exact ⟨_, mem_pairs_ofCode.mpr ⟨before, after, _, hcode, rfl, rfl, rfl⟩⟩

end Pairing

/-! ## The table -/

/-- A table of parentheses of a text in which of any two pairs one ends before
the other or holds it, and in which nothing that is unclosed lies in a pair. -/
structure ParenTable.NestsIn (src : Bytes) (table : ParenTable) : Prop where
  opening :
    ∀ opening partner, table.get? opening = some partner → src[opening]? = some openParen
  closing :
    ∀ opening closing, table.get? opening = some (some closing) →
      opening < closing ∧ src[closing]? = some closeParen
  distinct :
    ∀ opening opening' closing, table.get? opening = some (some closing) →
      table.get? opening' = some (some closing) → opening = opening'
  nested :
    ∀ opening closing inner partner, opening < inner →
      table.get? opening = some (some closing) → table.get? inner = some partner →
        closing < inner ∨ ∃ closing', partner = some closing' ∧ closing' < closing

/-- The table of a text nests, and its keys are the opening parentheses outside
all literals and comments. -/
theorem ParenTable.ofText_nestsIn (src : Bytes) :
    (ParenTable.ofText src).NestsIn src ∧
      ∀ opening, (∃ partner, (ParenTable.ofText src).get? opening = some partner) ↔
        src[opening]? = some openParen ∧ OutsideLiterals src opening := by
  have hnests := Pairing.ofText_nests src
  refine ⟨?_, ?_⟩
  · constructor <;> simp only [ParenTable.get?_ofText_eq_some_iff]
    · intro opening partner hpair
      exact (mem_codeBytes_iff.mp (hnests.opening opening partner hpair)).1
    · intro opening closing hpair
      rcases hnests.closing opening closing hpair with ⟨hlt, hmem, -⟩
      exact ⟨hlt, (mem_codeBytes_iff.mp hmem).1⟩
    · exact hnests.distinct
    · exact hnests.nested
  · intro opening
    simp only [ParenTable.get?_ofText_eq_some_iff]
    rw [Pairing.exists_mem_pairs_ofText_iff, mem_codeBytes_iff]

end LogSweep
