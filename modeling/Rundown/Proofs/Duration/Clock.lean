import Rundown.Duration.Notation
import Rundown.Proofs.Text.Numeral

/-!
# Clocks

A clock is read as exactly its total of seconds, up to the last second that a duration can hold:
the checks on the way to the total refuse it only if the total itself is too large
(`Duration.readClock_eq_some_iff`), and no text with a colon in it is a number of seconds
(`NumberText.read_eq_none_of_colon`).  `Duration.clock_spec` puts both together.
-/

namespace Rundown

open Text

/-! ## Numbers have no colons -/

namespace NumberText

variable {cs : List Char}

theorem mem_dropWhile_isDigit {c : Char} (h : c ∈ cs) (hc : c.isDigit = false) :
    c ∈ cs.dropWhile Char.isDigit := by
  rw [← List.takeWhile_append_dropWhile (p := Char.isDigit) (l := cs), List.mem_append] at h
  refine h.resolve_left fun hm => ?_
  rw [List.mem_takeWhile_imp hm] at hc
  cases hc

theorem mem_splitSign {c : Char} (h : c ∈ cs) (hplus : c ≠ '+') (hminus : c ≠ '-') :
    c ∈ (splitSign cs).2 := by
  unfold splitSign
  split
  · exact (List.mem_cons.1 h).resolve_left hminus
  · exact (List.mem_cons.1 h).resolve_left hplus
  · exact h

theorem readExponent_eq_none_of_colon (h : ':' ∈ cs) : readExponent cs = none := by
  cases cs with
  | nil => cases h
  | cons c rest =>
    rw [readExponent]
    split
    next he =>
      have hne : ':' ≠ c := by
        rintro rfl
        exact absurd he (by decide)
      have hsign : ':' ∈ (splitSign rest).2 :=
        mem_splitSign ((List.mem_cons.1 h).resolve_left hne) (by decide) (by decide)
      have hall : (splitSign rest).2.all Char.isDigit = false :=
        List.all_eq_false.2 ⟨':', hsign, by decide⟩
      simp only [hall, Bool.not_false, Bool.or_true, if_true]
    next => rfl

theorem readUnsigned_eq_none_of_colon (neg : Bool) (h : ':' ∈ cs) :
    readUnsigned neg cs = none := by
  have hrest : ':' ∈ cs.dropWhile Char.isDigit := mem_dropWhile_isDigit h (by decide)
  unfold readUnsigned
  generalize cs.dropWhile Char.isDigit = rest at hrest
  have hno {rest' : List Char} (hexponent : ':' ∈ rest') (fraction : List Char) :
      (if (cs.takeWhile Char.isDigit).isEmpty && fraction.isEmpty then none
        else (readExponent rest').map fun exponent =>
          ofParts neg (cs.takeWhile Char.isDigit) fraction exponent) = none := by
    rw [readExponent_eq_none_of_colon hexponent, Option.map_none, ite_self]
  dsimp only
  split
  next back =>
    have hback : ':' ∈ back := (List.mem_cons.1 hrest).resolve_left (by decide)
    exact hno (mem_dropWhile_isDigit hback (by decide)) _
  next => exact hno hrest _

/-- A text with a colon in it is not a number. -/
theorem read_eq_none_of_colon (h : ':' ∈ cs) : read cs = none := by
  have hunsigned : ':' ∈ (splitSign cs).2 := mem_splitSign h (by decide) (by decide)
  have hword (word : String) (hno : ':' ∉ word.toList) :
      String.ofList ((splitSign cs).2.map Char.toLower) ≠ word := by
    rintro rfl
    rw [String.toList_ofList] at hno
    exact hno (List.mem_map.2 ⟨':', hunsigned, rfl⟩)
  unfold read
  dsimp only
  rw [if_neg (not_or.2 ⟨hword _ (by decide), hword _ (by decide)⟩),
    if_neg (hword _ (by decide))]
  exact readUnsigned_eq_none_of_colon _ hunsigned

end NumberText

namespace Duration

/-- A part of a clock: a numeral, after a plus if there is one, of a number below the bound. -/
def IsPart (n : Nat) (cs : List Char) : Prop :=
  ∃ digits, (cs = digits ∨ cs = '+' :: digits) ∧ Numeral n digits ∧ n < secondsBound

/-- A text of two or three parts with colons between them, and the seconds that they make up. -/
inductive Clock : Nat → List Char → Prop
  | minutes {a b : Nat} {p q : List Char} : IsPart a p → IsPart b q →
      Clock (60 * a + b) (p ++ ':' :: q)
  | hours {a b c : Nat} {p q r : List Char} : IsPart a p → IsPart b q → IsPart c r →
      Clock (3600 * a + 60 * b + c) (p ++ ':' :: (q ++ ':' :: r))

variable {cs : List Char} {n total : Nat} {d : Duration}

/-! ## Parts -/

theorem checked_eq_some_iff {m : Nat} : checked n = some m ↔ n < secondsBound ∧ n = m := by
  unfold checked
  split <;> simp_all

theorem readPart_eq_some_iff : readPart cs = some n ↔ IsPart n cs := by
  have hread (digits : List Char) :
      (if digits.isEmpty || !digits.all Char.isDigit then none
        else checked (NumberText.digitsValue digits)) = some n ↔
      Numeral n digits ∧ n < secondsBound := by
    have hbad : (digits.isEmpty || !digits.all Char.isDigit) = true ↔
        ¬(digits ≠ [] ∧ ∀ c ∈ digits, c.isDigit = true) := by
      rw [← List.all_eq_true, Bool.or_eq_true, List.isEmpty_iff, Bool.not_eq_true',
        Bool.eq_false_iff]
      tauto
    rw [numeral_iff]
    split
    next h =>
      constructor
      · intro hnone
        cases hnone
      · rintro ⟨⟨hne, hdigits, -⟩, -⟩
        exact (hbad.1 h ⟨hne, hdigits⟩).elim
    next h =>
      obtain ⟨hne, hdigits⟩ := not_not.1 (mt hbad.2 h)
      rw [checked_eq_some_iff]
      constructor
      · rintro ⟨hlt, rfl⟩
        exact ⟨⟨hne, hdigits, rfl⟩, hlt⟩
      · rintro ⟨⟨-, -, rfl⟩, hlt⟩
        exact ⟨hlt, rfl⟩
  unfold readPart
  dsimp only
  split
  next digits =>
    rw [hread]
    refine ⟨fun h => ⟨digits, .inr rfl, h⟩, ?_⟩
    rintro ⟨digits', rfl | heq, h⟩
    · exact absurd (h.1.digits '+' List.mem_cons_self) (by decide)
    · cases heq
      exact h
  next hno =>
    rw [hread]
    refine ⟨fun h => ⟨_, .inl rfl, h⟩, ?_⟩
    rintro ⟨digits', rfl | rfl, h⟩
    · exact h
    · exact (hno digits' rfl).elim

/-- A part has no colon and no white space in it. -/
theorem IsPart.notMem_colon (h : IsPart n cs) : ':' ∉ cs := by
  obtain ⟨digits, rfl | rfl, hn, -⟩ := h
  · exact notMem_of_digits hn.digits (by decide)
  · exact List.not_mem_cons_of_ne_of_not_mem (by decide)
      (notMem_of_digits hn.digits (by decide))

theorem IsPart.solid (h : IsPart n cs) : Solid cs := by
  obtain ⟨digits, rfl | rfl, hn, -⟩ := h
  · exact solid_of_digits hn.digits
  · exact solid_cons.2 ⟨by decide, solid_of_digits hn.digits⟩

/-! ## Clocks -/

theorem Clock.solid (h : Clock total cs) : Solid cs := by
  have hcolon : isBlank ':' = false := by decide
  cases h with
  | minutes hp hq => exact solid_append.2 ⟨hp.solid, solid_cons.2 ⟨hcolon, hq.solid⟩⟩
  | hours hp hq hr =>
    exact solid_append.2 ⟨hp.solid, solid_cons.2 ⟨hcolon,
      solid_append.2 ⟨hq.solid, solid_cons.2 ⟨hcolon, hr.solid⟩⟩⟩⟩

theorem splitColons_eq (cs : List Char) : splitColons cs = cs.splitOn ':' := by
  induction cs with
  | nil => rfl
  | cons c rest ih =>
    rw [List.splitOn_cons_eq_if_modifyHead, ← ih]
    cases hparts : splitColons rest with
    | nil => exact absurd (ih.symm.trans hparts) (List.splitOn_ne_nil ':' rest)
    | cons part parts =>
      unfold splitColons at hparts ⊢
      rw [List.foldr_cons, hparts]
      simp only [beq_iff_eq, List.modifyHead_cons]

/-- Parts that have no colons in them are found again between the colons that join them. -/
theorem splitColons_intercalate (parts : List (List Char)) (hparts : parts ≠ [])
    (hno : ∀ part ∈ parts, ':' ∉ part) : splitColons ([':'].intercalate parts) = parts := by
  rw [splitColons_eq]
  exact List.splitOn_intercalate ':' hno hparts

theorem intercalate_splitColons (cs : List Char) : [':'].intercalate (splitColons cs) = cs := by
  rw [splitColons_eq]
  exact List.intercalate_splitOn ':'

/-- The checks refuse a clock of two parts exactly when its total does not fit. -/
theorem checked_minutes {a b : Nat} :
    (do let total ← checked ((← checked (a * 60)) + b); some (⟨total, 0⟩ : Duration)) = some d ↔
      60 * a + b < secondsBound ∧ d = ⟨60 * a + b, 0⟩ := by
  simp only [Option.bind_eq_bind, Option.bind_eq_some_iff, checked_eq_some_iff, Option.some_inj]
  constructor
  · rintro ⟨minutes, ⟨-, rfl⟩, total, ⟨hlt, rfl⟩, rfl⟩
    rw [Nat.mul_comm]
    exact ⟨hlt, rfl⟩
  · rintro ⟨hlt, rfl⟩
    have heq : a * 60 + b = 60 * a + b := by omega
    exact ⟨a * 60, ⟨by omega, rfl⟩, 60 * a + b, ⟨by omega, heq⟩, rfl⟩

/-- The checks refuse a clock of three parts exactly when its total does not fit. -/
theorem checked_hours {a b c : Nat} :
    (do
      let whole ← checked ((← checked (a * 3600)) + (← checked (b * 60)))
      let total ← checked (whole + c)
      some (⟨total, 0⟩ : Duration)) = some d ↔
      3600 * a + 60 * b + c < secondsBound ∧ d = ⟨3600 * a + 60 * b + c, 0⟩ := by
  simp only [Option.bind_eq_bind, Option.bind_eq_some_iff, checked_eq_some_iff, Option.some_inj]
  constructor
  · rintro ⟨hours, ⟨-, rfl⟩, minutes, ⟨-, rfl⟩, whole, ⟨-, rfl⟩, total, ⟨hlt, rfl⟩, rfl⟩
    rw [Nat.mul_comm 3600, Nat.mul_comm 60]
    exact ⟨hlt, rfl⟩
  · rintro ⟨hlt, rfl⟩
    have heq : a * 3600 + b * 60 + c = 3600 * a + 60 * b + c := by omega
    exact ⟨a * 3600, ⟨by omega, rfl⟩, b * 60, ⟨by omega, rfl⟩, a * 3600 + b * 60, ⟨by omega, rfl⟩,
      3600 * a + 60 * b + c, ⟨by omega, heq⟩, rfl⟩

/-- A clock is read as its total, if that fits. -/
theorem readClock_eq_some_iff :
    readClock cs = some d ↔ ∃ total, Clock total cs ∧ total < secondsBound ∧ d = ⟨total, 0⟩ := by
  constructor
  · intro h
    rw [← intercalate_splitColons cs]
    unfold readClock at h
    split at h
    next p q hparts =>
      obtain ⟨a, ha, h⟩ := Option.bind_eq_some_iff.1 h
      obtain ⟨b, hb, h⟩ := Option.bind_eq_some_iff.1 h
      refine ⟨60 * a + b, ?_, checked_minutes.1 h⟩
      rw [hparts]
      simpa using Clock.minutes (readPart_eq_some_iff.1 ha) (readPart_eq_some_iff.1 hb)
    next p q r hparts =>
      obtain ⟨a, ha, h⟩ := Option.bind_eq_some_iff.1 h
      obtain ⟨b, hb, h⟩ := Option.bind_eq_some_iff.1 h
      obtain ⟨c, hc, h⟩ := Option.bind_eq_some_iff.1 h
      refine ⟨3600 * a + 60 * b + c, ?_, checked_hours.1 h⟩
      rw [hparts]
      simpa using Clock.hours (readPart_eq_some_iff.1 ha) (readPart_eq_some_iff.1 hb)
        (readPart_eq_some_iff.1 hc)
    next => cases h
  · rintro ⟨total, hclock, hfits⟩
    cases hclock with
    | @minutes a b p q hp hq =>
      have hparts : splitColons (p ++ ':' :: q) = [p, q] := by
        simpa using splitColons_intercalate [p, q] (List.cons_ne_nil _ _)
          (by simp [hp.notMem_colon, hq.notMem_colon])
      rw [readClock, hparts]
      simp only [readPart_eq_some_iff.2 hp, readPart_eq_some_iff.2 hq]
      exact checked_minutes.2 hfits
    | @hours a b c p q r hp hq hr =>
      have hparts : splitColons (p ++ ':' :: (q ++ ':' :: r)) = [p, q, r] := by
        simpa using splitColons_intercalate [p, q, r] (List.cons_ne_nil _ _)
          (by simp [hp.notMem_colon, hq.notMem_colon, hr.notMem_colon])
      rw [readClock, hparts]
      simp only [readPart_eq_some_iff.2 hp, readPart_eq_some_iff.2 hq, readPart_eq_some_iff.2 hr]
      exact checked_hours.2 hfits

theorem read_trim_eq_none {s : String} (h : ':' ∈ s.toList) :
    NumberText.read (trim s.toList) = none :=
  NumberText.read_eq_none_of_colon (mem_trim h (by decide))

theorem read_eq_readClock {s : String} (h : ':' ∈ s.toList) :
    read s = readClock (trim s.toList) := by
  simp only [read, read_trim_eq_none h]

/-- A text with a colon in it is no number, and it is read as a duration exactly when, white space
around it aside, it is a clock whose total is below the bound of seconds; the duration is then that
total. -/
theorem clock_spec (s : String) (hcolon : ':' ∈ s.toList) (d : Duration) :
    NumberText.read (trim s.toList) = none ∧
    (read s = some d ↔ ∃ cs total, Padded cs s.toList ∧ Clock total cs ∧ total < secondsBound ∧
      d = ⟨total, 0⟩) := by
  refine ⟨read_trim_eq_none hcolon, ?_⟩
  rw [read_eq_readClock hcolon, readClock_eq_some_iff]
  constructor
  · rintro ⟨total, hclock, hfits⟩
    exact ⟨trim s.toList, total, padded_trim s.toList, hclock, hfits⟩
  · rintro ⟨cs, total, hpadded, hclock, hfits⟩
    rw [hpadded.trim_eq hclock.solid]
    exact ⟨total, hclock, hfits⟩

/-- The last second that a duration can hold, with a plus, a leading zero, sixty minutes and white
space around it.  One second more is refused. -/
theorem clock_spec_lastSecond :
    ':' ∈ "\u2003+05124095576030430:060:15 ".toList ∧
      read "\u2003+05124095576030430:060:15 " = some ⟨18446744073709551615, 0⟩ ∧
      ¬∃ cs total, Padded cs "5124095576030431:00:16".toList ∧ Clock total cs ∧
        total < secondsBound := by
  have hcolon : ':' ∈ "\u2003+05124095576030430:060:15 ".toList := by decide
  have hclock : Clock (3600 * 5124095576030430 + 60 * 60 + 15)
      "+05124095576030430:060:15".toList := by
    refine .hours (p := "+05124095576030430".toList) (q := "060".toList) (r := "15".toList)
      ⟨"05124095576030430".toList, .inr rfl, ?_⟩ ⟨_, .inl rfl, ?_⟩ ⟨_, .inl rfl, ?_⟩ <;>
        exact ⟨by decide, by decide⟩
  have hpadded : Padded "+05124095576030430:060:15".toList
      "\u2003+05124095576030430:060:15 ".toList :=
    ⟨['\u2003'], [' '], by decide, List.all_eq_true.1 rfl, List.all_eq_true.1 rfl⟩
  have hnone : read "5124095576030431:00:16" = none := by decide +kernel
  refine ⟨hcolon, ((clock_spec _ hcolon _).2).2 ⟨_, _, hpadded, hclock, by decide, rfl⟩, ?_⟩
  rintro ⟨cs, total, h⟩
  have hsome := ((clock_spec "5124095576030431:00:16" (by decide) ⟨total, 0⟩).2).2
    ⟨cs, total, h.1, h.2.1, h.2.2, rfl⟩
  rw [hnone] at hsome
  cases hsome

end Duration

end Rundown
