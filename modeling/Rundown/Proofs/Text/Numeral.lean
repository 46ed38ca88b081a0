import Mathlib.Data.List.TakeWhile
import Mathlib.Data.Nat.Digits.Defs
import Rundown.Number.Reader
import Rundown.Text.CharClass

/-!
# Numerals, and white space around a text

A numeral is a text of decimal digits.  `NumberText.digitsValue` computes the number that it denotes
(`Text.Numeral.digitsValue`).  Of a text without white space that has white space around it,
`Text.trim` leaves the text itself (`Text.Padded.trim_eq`).
-/

namespace Rundown

namespace Text

/-- One or more decimal digits that denote the number `n`; zeros may come first. -/
structure Numeral (n : Nat) (cs : List Char) : Prop where
  nonempty : cs ≠ []
  digits : ∀ c ∈ cs, c.isDigit = true
  value : Nat.ofDigits 10 (cs.reverse.map fun c => c.toNat - '0'.toNat) = n

/-- The text `padded` is `cs` with white space around it. -/
def Padded (cs padded : List Char) : Prop :=
  ∃ front back, padded = front ++ cs ++ back ∧ (∀ c ∈ front, isBlank c = true) ∧
    ∀ c ∈ back, isBlank c = true

/-- The text has no white space in it. -/
def Solid (cs : List Char) : Prop := ∀ c ∈ cs, isBlank c = false

variable {cs cs' padded : List Char} {n : Nat} {c : Char}

/-! ## White space -/

theorem dropWhile_of_solid (h : Solid cs) : cs.dropWhile isBlank = cs := by
  cases cs with
  | nil => rfl
  | cons c rest => exact List.dropWhile_cons_of_neg (by rw [h c List.mem_cons_self]; simp)

theorem Solid.reverse (h : Solid cs) : Solid cs.reverse := fun c hc => h c (List.mem_reverse.1 hc)

theorem solid_append : Solid (cs ++ cs') ↔ Solid cs ∧ Solid cs' := List.forall_mem_append

theorem solid_cons : Solid (c :: cs) ↔ isBlank c = false ∧ Solid cs := List.forall_mem_cons

/-- A solid text or none at all comes before white space that is stripped. -/
theorem dropWhile_padded {front back : List Char} (hs : Solid cs)
    (hfront : ∀ c ∈ front, isBlank c = true) (hback : ∀ c ∈ back, isBlank c = true) :
    (front ++ cs ++ back).dropWhile isBlank = if cs = [] then [] else cs ++ back := by
  rw [List.append_assoc, List.dropWhile_append_of_pos hfront]
  cases cs with
  | nil => rw [if_pos rfl, List.nil_append, List.dropWhile_eq_nil_iff.2 hback]
  | cons c rest =>
    rw [if_neg (List.cons_ne_nil c rest)]
    exact List.dropWhile_cons_of_neg (by rw [hs c List.mem_cons_self]; simp)

theorem Padded.trim_eq (h : Padded cs padded) (hs : Solid cs) : trim padded = cs := by
  obtain ⟨front, back, rfl, hfront, hback⟩ := h
  rw [trim, dropWhile_padded hs hfront hback]
  split
  next hnil => rw [hnil]; rfl
  next =>
    have hrev : ∀ c ∈ back.reverse, isBlank c = true := fun c hc =>
      hback c (List.mem_reverse.1 hc)
    rw [List.reverse_append, List.dropWhile_append_of_pos hrev, dropWhile_of_solid hs.reverse,
      List.reverse_reverse]

/-- Trimming takes away nothing but white space. -/
theorem padded_trim (padded : List Char) : Padded (trim padded) padded := by
  have hblank (cs : List Char) : ∀ c ∈ cs.takeWhile isBlank, isBlank c = true := fun c hc =>
    List.mem_takeWhile_imp hc
  refine ⟨padded.takeWhile isBlank,
    ((padded.dropWhile isBlank).reverse.takeWhile isBlank).reverse, ?_, hblank _,
    fun c hc => hblank _ c (List.mem_reverse.1 hc)⟩
  rw [List.append_assoc, trim, ← List.reverse_append, List.takeWhile_append_dropWhile,
    List.reverse_reverse, List.takeWhile_append_dropWhile]

/-- Trimming keeps what is not white space. -/
theorem mem_trim (h : c ∈ padded) (hc : isBlank c = false) : c ∈ trim padded := by
  obtain ⟨front, back, hp, hfront, hback⟩ := padded_trim padded
  rw [hp, List.mem_append, List.mem_append] at h
  have hno {l : List Char} (hl : ∀ c ∈ l, isBlank c = true) (hm : c ∈ l) : False := by
    rw [hl c hm] at hc
    cases hc
  rcases h with (h | h) | h
  · exact (hno hfront h).elim
  · exact h
  · exact (hno hback h).elim

/-! ## Digits -/

theorem isBlank_digit (h : c.isDigit = true) : isBlank c = false := by
  obtain ⟨hlow, hhigh⟩ := Char.isDigit_iff_toNat.1 h
  have hlow : 48 ≤ c.toNat := hlow
  have hhigh : c.toNat ≤ 57 := hhigh
  simp only [isBlank, Ranges.has, blankRanges, List.any_cons, List.any_nil, Bool.or_false,
    Bool.or_eq_false_iff, Bool.and_eq_false_iff, decide_eq_false_iff_not]
  omega

theorem solid_of_digits (h : ∀ c ∈ cs, c.isDigit = true) : Solid cs := fun c hc =>
  isBlank_digit (h c hc)

theorem notMem_of_digits (h : ∀ c ∈ cs, c.isDigit = true) (hc : c.isDigit = false) : c ∉ cs := by
  intro hm
  rw [h c hm] at hc
  cases hc

end Text

namespace NumberText

open Text

theorem digitsValue_eq (cs : List Char) :
    digitsValue cs = Nat.ofDigits 10 (cs.reverse.map fun c => c.toNat - '0'.toNat) := by
  rw [Nat.ofDigits_eq_foldr, List.foldr_map, List.foldr_reverse]
  show cs.foldl _ 0 = cs.foldl _ 0
  congr 1
  funext n c
  simp only [Nat.cast_id]
  omega

end NumberText

theorem Text.Numeral.digitsValue {n : Nat} {cs : List Char} (h : Text.Numeral n cs) :
    NumberText.digitsValue cs = n := (NumberText.digitsValue_eq cs).trans h.value

/-- What a text of digits denotes is unique. -/
theorem Text.numeral_iff {n : Nat} {cs : List Char} : Text.Numeral n cs ↔
    cs ≠ [] ∧ (∀ c ∈ cs, c.isDigit = true) ∧ NumberText.digitsValue cs = n := by
  rw [NumberText.digitsValue_eq]
  exact ⟨fun h => ⟨h.nonempty, h.digits, h.value⟩, fun h => ⟨h.1, h.2.1, h.2.2⟩⟩

instance (n : Nat) (cs : List Char) : Decidable (Text.Numeral n cs) :=
  decidable_of_iff
    (cs ≠ [] ∧ cs.all Char.isDigit = true ∧ NumberText.digitsValue cs = n)
    (by rw [List.all_eq_true, Text.numeral_iff])

end Rundown
