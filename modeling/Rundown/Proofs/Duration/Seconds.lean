import Mathlib.Tactic.NormNum
import Rundown.Action.Options
import Rundown.Proofs.Duration.Clock
import Rundown.Proofs.Number.Rounding

/-!
# Numbers of seconds

A plain decimal number of seconds goes through two roundings, to the nearest binary64 number and
from there to nanoseconds.  Below `2 ^ 23` seconds the first is off by less than half a nanosecond,
so that the second undoes it; below `2 ^ 53` whole seconds there is nothing to round
(`Duration.seconds_spec`).
-/

namespace Rundown

open Text

/-! ## The nearest number to a plain decimal -/

namespace Binary64

variable {digits len n : Nat}

/-- A decimal fraction is read as a quotient, if it is not too small for any number. -/
theorem ofDecimal_eq_ofRatio (neg : Bool) (hdigits : 0 < digits) (hlen : len ≤ digits.log2 + 400) :
    ∃ num den : Nat, 0 < num ∧ 0 < den ∧ (num : ℚ) / den = digits / 10 ^ len ∧
      ofDecimal neg digits (-(len : Int)) = ofRatio neg num den := by
  unfold ofDecimal
  rw [if_neg hdigits.ne', if_neg (by omega), if_neg (by omega)]
  split
  next h =>
    obtain rfl : len = 0 := by omega
    exact ⟨digits * Nat.pow 10 (-((0 : Nat) : Int)).toNat, 1, Nat.mul_pos hdigits (by decide),
      Nat.one_pos, by simp, rfl⟩
  next h =>
    refine ⟨digits, Nat.pow 10 (- -(len : Int)).toNat, hdigits, Nat.pow_pos (by decide), ?_, rfl⟩
    rw [natPow_cast, neg_neg, Int.toNat_natCast, Nat.cast_ofNat]

/-- The digits of a whole number of nanoseconds, in seconds, are not too few for their fraction. -/
theorem length_le_of_nanos (hn : 0 < n) (h : digits * 1000000000 = n * 10 ^ len) :
    0 < digits ∧ len ≤ digits.log2 + 400 := by
  have hten : 0 < 10 ^ len := Nat.pow_pos (by decide)
  have hdigits : 0 < digits := by
    have : 0 < n * 10 ^ len := Nat.mul_pos hn hten
    omega
  refine ⟨hdigits, ?_⟩
  have hlt : 2 ^ len < 2 ^ (digits.log2 + 31) := by
    calc 2 ^ len ≤ 10 ^ len := Nat.pow_le_pow_left (by decide) len
      _ ≤ n * 10 ^ len := Nat.le_mul_of_pos_left _ hn
      _ = digits * 1000000000 := h.symm
      _ < 2 ^ (digits.log2 + 1) * 2 ^ 30 :=
        Nat.mul_lt_mul_of_lt_of_le Nat.lt_log2_self (by decide) (by decide)
      _ = 2 ^ (digits.log2 + 31) := by rw [← pow_add]
  have := (Nat.pow_lt_pow_iff_right (by decide)).1 hlt
  omega

theorem div_eq_of_nanos (h : digits * 1000000000 = n * 10 ^ len) :
    (digits : ℚ) / 10 ^ len = n / 1000000000 := by
  rw [div_eq_div_iff (by positivity) (by norm_num)]
  exact_mod_cast h

/-- The nearest number is less than half a nanosecond away. -/
theorem ofDecimal_near (h : digits * 1000000000 = n * 10 ^ len) (hn : n < 2 ^ 23 * 1000000000) :
    ∃ x, ofDecimal false digits (-(len : Int)) = some x ∧ x.neg = false ∧
      |x.magnitude * 1000000000 - n| < 1 / 2 := by
  rcases Nat.eq_zero_or_pos n with rfl | hpos
  · obtain rfl : digits = 0 := by omega
    exact ⟨zero false, rfl, rfl, by simp⟩
  · obtain ⟨hdigits, hlen⟩ := length_le_of_nanos hpos h
    obtain ⟨num, den, hnum, hden, hratio, heq⟩ := ofDecimal_eq_ofRatio false hdigits hlen
    rw [div_eq_of_nanos h] at hratio
    have hlt : (n : ℚ) < 2 ^ 23 * 1000000000 := by exact_mod_cast hn
    have hbelow : (num : ℚ) / den < 2 ^ (53 : Int) * 2 ^ (-30 : Int) := by
      rw [hratio, div_lt_iff₀ (by norm_num)]
      refine lt_of_lt_of_eq hlt ?_
      norm_num
    obtain ⟨x, hx, hneg, hnear⟩ :=
      ofRatio_near (k := -30) false hnum hden (by decide) (by decide) hbelow
    refine ⟨x, heq.trans hx, hneg, ?_⟩
    have hscaled : x.magnitude * 1000000000 - n = (x.magnitude - num / den) * 1000000000 := by
      rw [hratio]
      ring
    calc |x.magnitude * 1000000000 - n| = |x.magnitude - num / den| * 1000000000 := by
          rw [hscaled, abs_mul, abs_of_pos (by norm_num : (0 : ℚ) < 1000000000)]
      _ ≤ 1 / 2 * 2 ^ (-30 : Int) * 1000000000 :=
          mul_le_mul_of_nonneg_right hnear (by norm_num)
      _ < 1 / 2 := by norm_num

/-- A whole number of seconds is hit exactly. -/
theorem ofDecimal_exact {k : Nat} (h : digits * 1000000000 = k * 1000000000 * 10 ^ len)
    (hk : k < 2 ^ 53) :
    ∃ x, ofDecimal false digits (-(len : Int)) = some x ∧ x.neg = false ∧ x.magnitude = k := by
  rcases Nat.eq_zero_or_pos k with rfl | hpos
  · obtain rfl : digits = 0 := by omega
    exact ⟨zero false, rfl, rfl, by simp⟩
  · obtain ⟨hdigits, hlen⟩ := length_le_of_nanos (Nat.mul_pos hpos (by decide)) h
    obtain ⟨num, den, hnum, hden, hratio, heq⟩ := ofDecimal_eq_ofRatio false hdigits hlen
    have hwhole : (num : ℚ) / den = k * 2 ^ (0 : Int) := by
      rw [hratio, div_eq_of_nanos h]
      push_cast
      field_simp
    obtain ⟨x, hx, hneg, hmagnitude⟩ :=
      ofRatio_exact (k := 0) false hnum hden (by decide) (by decide) hk hwhole
    exact ⟨x, heq.trans hx, hneg, by rw [hmagnitude, hwhole, zpow_zero, mul_one]⟩

end Binary64

/-! ## Reading a plain decimal -/

namespace NumberText

variable {cs whole fraction rest : List Char}

/-- What follows the whole digits of a plain decimal: nothing, or a point and the digits of the
fraction. -/
inductive Tail : List Char → List Char → Prop
  | none : Tail [] []
  | point (fraction : List Char) : Tail fraction ('.' :: fraction)

theorem splitSign_of_notMem (hminus : '-' ∉ cs) (hplus : '+' ∉ cs) :
    splitSign cs = (false, cs) := by
  unfold splitSign
  split
  · exact absurd List.mem_cons_self hminus
  · exact absurd List.mem_cons_self hplus
  · rfl

theorem toLower_digit {c : Char} (h : c.isDigit = true) : c.toLower = c := by
  refine dif_neg ?_
  rintro ⟨hlow, -⟩
  have hlow : 65 ≤ c.toNat := hlow
  have hhigh : c.toNat ≤ 57 := (Char.isDigit_iff_toNat.1 h).2
  omega

theorem span_digits (hwhole : ∀ c ∈ whole, c.isDigit = true) (htail : Tail fraction rest) :
    (whole ++ rest).takeWhile Char.isDigit = whole ∧
      (whole ++ rest).dropWhile Char.isDigit = rest := by
  rw [List.takeWhile_append_of_pos hwhole, List.dropWhile_append_of_pos hwhole]
  cases htail with
  | none => simp
  | point fraction => simp

theorem tail_digits (htail : Tail fraction rest) (h : ∀ c ∈ fraction, c.isDigit = true) :
    ∀ c ∈ rest, c.isDigit = true ∨ c = '.' := by
  cases htail with
  | none => exact fun c hc => by cases hc
  | point fraction => exact List.forall_mem_cons.2 ⟨.inr rfl, fun c hc => .inl (h c hc)⟩

theorem readUnsigned_plain (neg : Bool) (htail : Tail fraction rest)
    (hdigits : ∀ c ∈ whole ++ fraction, c.isDigit = true) (hne : whole ++ fraction ≠ []) :
    readUnsigned neg (whole ++ rest) = some (ofParts neg whole fraction 0) := by
  obtain ⟨hwhole, hfraction⟩ := List.forall_mem_append.1 hdigits
  obtain ⟨htake, hdrop⟩ := span_digits hwhole htail
  have hall : fraction.takeWhile Char.isDigit = fraction := List.takeWhile_eq_self_iff.2 hfraction
  have hnone : fraction.dropWhile Char.isDigit = [] := List.dropWhile_eq_nil_iff.2 hfraction
  have hsome : (whole.isEmpty && fraction.isEmpty) = false := by
    rw [Bool.eq_false_iff, ne_eq, Bool.and_eq_true, List.isEmpty_iff, List.isEmpty_iff]
    exact fun h => hne (List.append_eq_nil_iff.2 h)
  unfold readUnsigned
  rw [htake, hdrop]
  cases htail with
  | none =>
    simp only [hsome]
    rfl
  | point fraction =>
    simp only [hall, hnone, hsome]
    rfl

/-- A plain decimal is read as the number of its digits. -/
theorem read_plain (htail : Tail fraction rest)
    (hdigits : ∀ c ∈ whole ++ fraction, c.isDigit = true) (hne : whole ++ fraction ≠ []) :
    read (whole ++ rest) = some (ofParts false whole fraction 0) := by
  obtain ⟨hwhole, hfraction⟩ := List.forall_mem_append.1 hdigits
  have hchars : ∀ c ∈ whole ++ rest, c.isDigit = true ∨ c = '.' :=
    List.forall_mem_append.2 ⟨fun c hc => .inl (hwhole c hc), tail_digits htail hfraction⟩
  have hno (c : Char) (hdigit : c.isDigit = false) (hpoint : c ≠ '.') : c ∉ whole ++ rest := by
    intro hc
    rcases hchars c hc with h | h
    · rw [hdigit] at h
      cases h
    · exact hpoint h
  have hlower : (whole ++ rest).map Char.toLower = whole ++ rest := by
    conv_rhs => rw [← List.map_id (whole ++ rest)]
    refine List.map_congr_left fun c hc => ?_
    rcases hchars c hc with h | rfl
    · exact toLower_digit h
    · rfl
  -- Each of the words has a letter that no plain decimal has.
  have hword (word : String) (c : Char) (hc : c ∈ word.toList) (hdigit : c.isDigit = false)
      (hpoint : c ≠ '.') : String.ofList (whole ++ rest) ≠ word := by
    rintro rfl
    rw [String.toList_ofList] at hc
    exact hno c hdigit hpoint hc
  have hinf (word : String) (hc : 'i' ∈ word.toList) := hword word 'i' hc (by decide) (by decide)
  unfold read
  rw [splitSign_of_notMem (hno '-' (by decide) (by decide)) (hno '+' (by decide) (by decide))]
  dsimp only
  rw [hlower, if_neg (not_or.2 ⟨hinf "inf" (by decide), hinf "infinity" (by decide)⟩),
    if_neg (hword "nan" 'n' (by decide) (by decide) (by decide)),
    readUnsigned_plain false htail hdigits hne]

end NumberText

/-! ## Durations -/

namespace Duration

open NumberText

/-- A plain decimal of `n` nanoseconds, in seconds: digits, and a point with the digits of the
fraction if there is one; zeros may stand at either end. -/
def PlainSeconds (n : Nat) (cs : List Char) : Prop :=
  ∃ whole fraction rest m, cs = whole ++ rest ∧ Tail fraction rest ∧
    Numeral m (whole ++ fraction) ∧ m * nanosPerSecond = n * 10 ^ fraction.length

variable {s : String} {cs : List Char} {n k : Nat}

theorem PlainSeconds.solid (h : PlainSeconds n cs) : Solid cs := by
  obtain ⟨whole, fraction, rest, m, rfl, htail, hm, -⟩ := h
  obtain ⟨hwhole, hfraction⟩ := List.forall_mem_append.1 hm.digits
  refine solid_append.2 ⟨solid_of_digits hwhole, fun c hc => ?_⟩
  rcases tail_digits htail hfraction c hc with h | rfl
  · exact isBlank_digit h
  · decide

/-- A number of seconds that is less than half a nanosecond away from `n` nanoseconds gives `n`
nanoseconds. -/
theorem ofMagnitude_eq {x : Binary64} (hn : n < secondsBound * nanosPerSecond)
    (h : |x.magnitude * nanosPerSecond - n| < 1 / 2) :
    ofMagnitude x = some ⟨n / nanosPerSecond, n % nanosPerSecond⟩ := by
  have hden := x.ratio_pos
  have hratio := x.ratio_eq
  unfold ofMagnitude
  generalize x.ratio = ratio at hden hratio ⊢
  obtain ⟨num, den⟩ := ratio
  have hround : roundHalfEven (num * nanosPerSecond) den = n := by
    refine roundHalfEven_eq hden ?_
    rw [Nat.cast_mul, mul_div_right_comm, hratio]
    exact h
  have hfits : ¬secondsBound * den ≤ num := by
    intro hle
    have hle : (secondsBound : ℚ) ≤ x.magnitude := by
      rw [← hratio, le_div_iff₀ (Nat.cast_pos.2 hden)]
      exact_mod_cast hle
    have hnanos : (n : ℚ) + 1 ≤ secondsBound * nanosPerSecond := by exact_mod_cast hn
    have hscaled : (secondsBound : ℚ) * nanosPerSecond ≤ x.magnitude * nanosPerSecond :=
      mul_le_mul_of_nonneg_right hle (Nat.cast_nonneg _)
    linarith [(abs_lt.1 h).2]
  dsimp only
  rw [if_neg hfits, hround]

/-- A plain decimal is read exactly where its nearest number is less than half a nanosecond away. -/
theorem read_plainSeconds (hpadded : Padded cs s.toList) (h : PlainSeconds n cs)
    (hn : n < secondsBound * nanosPerSecond)
    (hnear : ∀ digits len : Nat, digits * nanosPerSecond = n * 10 ^ len →
      ∃ x, Binary64.ofDecimal false digits (-(len : Int)) = some x ∧ x.neg = false ∧
        |x.magnitude * nanosPerSecond - n| < 1 / 2) :
    read s = some ⟨n / nanosPerSecond, n % nanosPerSecond⟩ := by
  rw [read, hpadded.trim_eq h.solid]
  obtain ⟨whole, fraction, rest, m, rfl, htail, hm, hvalue⟩ := h
  obtain ⟨x, hx, hneg, hclose⟩ := hnear m fraction.length hvalue
  have hparts : ofParts false whole fraction 0 = .finite x := by
    rw [ofParts, hm.digitsValue, zero_sub, hx]
  simp only [read_plain htail hm.digits hm.nonempty, hparts, ofNumber, hneg]
  exact ofMagnitude_eq hn hclose

theorem read_below (hpadded : Padded cs s.toList) (h : PlainSeconds n cs)
    (hn : n < 2 ^ 23 * nanosPerSecond) :
    read s = some ⟨n / nanosPerSecond, n % nanosPerSecond⟩ := by
  refine read_plainSeconds hpadded h (hn.trans (by decide)) fun digits len hvalue => ?_
  exact_mod_cast Binary64.ofDecimal_near hvalue hn

theorem read_whole (hpadded : Padded cs s.toList) (h : PlainSeconds (k * nanosPerSecond) cs)
    (hk : k < 2 ^ 53) : read s = some ⟨k, 0⟩ := by
  have hpos : 0 < nanosPerSecond := by decide
  have hn : k * nanosPerSecond < secondsBound * nanosPerSecond :=
    Nat.mul_lt_mul_of_pos_right (hk.trans (by decide)) hpos
  rw [read_plainSeconds hpadded h hn, Nat.mul_div_cancel _ hpos, Nat.mul_mod_left]
  intro digits len hvalue
  obtain ⟨x, hx, hneg, hmagnitude⟩ := Binary64.ofDecimal_exact hvalue hk
  refine ⟨x, hx, hneg, ?_⟩
  rw [hmagnitude, Nat.cast_mul, sub_self]
  norm_num

/-- A text of digits after `0:` is a clock of so many seconds. -/
theorem read_zeroMinutes {seconds : List Char} (hpadded : Padded ('0' :: ':' :: seconds) s.toList)
    (hseconds : Numeral k seconds) (hk : k < secondsBound) : read s = some ⟨k, 0⟩ := by
  have hclock : Clock (60 * 0 + k) ('0' :: ':' :: seconds) :=
    .minutes (p := ['0']) ⟨['0'], .inl rfl, by decide, by decide⟩
      ⟨seconds, .inl rfl, hseconds, hk⟩
  have hcolon : ':' ∈ s.toList := by
    obtain ⟨front, back, heq, -⟩ := hpadded
    rw [heq]
    simp
  rw [read_eq_readClock hcolon, hpadded.trim_eq hclock.solid, readClock_eq_some_iff]
  refine ⟨_, hclock, ?_, ?_⟩
  · omega
  · rw [Nat.mul_zero, Nat.zero_add]

/-- Plain decimals of seconds are exact.  Below `2 ^ 23` seconds a text of `n` nanoseconds is read
as `n` nanoseconds, so that a time given as text is the same as one given in milliseconds and, for
whole seconds, as a clock with zero minutes.  A text of fewer than `2 ^ 53` whole seconds is read as
so many seconds. -/
theorem seconds_spec :
    (∀ s cs n, Padded cs s.toList → PlainSeconds n cs → n < 2 ^ 23 * nanosPerSecond →
      read s = some ⟨n / nanosPerSecond, n % nanosPerSecond⟩) ∧
    (∀ s cs ms, Padded cs s.toList → PlainSeconds (ms * nanosPerMilli) cs → ms < 2 ^ 23 * 1000 →
      (Timeout.text s).toDuration = (Timeout.millis ms).toDuration) ∧
    (∀ s cs clock seconds k, Padded cs s.toList → PlainSeconds (k * nanosPerSecond) cs →
      Padded ('0' :: ':' :: seconds) clock.toList → Numeral k seconds → k < 2 ^ 23 →
        read s = read clock) ∧
    (∀ s cs k, Padded cs s.toList → PlainSeconds (k * nanosPerSecond) cs → k < 2 ^ 53 →
      read s = some ⟨k, 0⟩) := by
  refine ⟨fun s cs n => read_below, ?_, ?_, fun s cs k => read_whole⟩
  · intro s cs ms hpadded h hms
    have hn : ms * nanosPerMilli < 2 ^ 23 * nanosPerSecond := by
      unfold nanosPerMilli nanosPerSecond
      omega
    rw [Timeout.toDuration, Timeout.toDuration, read_below hpadded h hn, ofMillis]
    unfold nanosPerMilli nanosPerSecond
    congr 2 <;> omega
  · intro s cs clock seconds k hpadded h hclock hseconds hk
    rw [read_whole hpadded h (hk.trans (by decide)),
      read_zeroMinutes hclock hseconds (hk.trans (by decide))]

/-- The last nanosecond below the bound, with zeros at both ends and white space around it; a
quarter of a second; a minute; and the last whole number of seconds. -/
theorem seconds_spec_lastNano :
    Padded "08388607.9999999990".toList " 08388607.9999999990\n".toList ∧
      PlainSeconds 8388607999999999 "08388607.9999999990".toList ∧
      8388607999999999 < 2 ^ 23 * nanosPerSecond ∧
      read " 08388607.9999999990\n" = some ⟨8388607, 999999999⟩ ∧
      (Timeout.text ".25").toDuration = (Timeout.millis 250).toDuration ∧
      read "60." = read "0:060" ∧
      read "9007199254740991" = some ⟨9007199254740991, 0⟩ := by
  obtain ⟨hbelow, hmillis, hclock, hwhole⟩ := seconds_spec
  have hself (cs : List Char) : Padded cs cs := ⟨[], [], by simp⟩
  have hpadded : Padded "08388607.9999999990".toList " 08388607.9999999990\n".toList :=
    ⟨[' '], ['\n'], by decide, List.all_eq_true.1 rfl, List.all_eq_true.1 rfl⟩
  have hlast : PlainSeconds 8388607999999999 "08388607.9999999990".toList :=
    ⟨"08388607".toList, "9999999990".toList, _, 83886079999999990, rfl, .point _, by decide,
      by decide⟩
  have hbound : 8388607999999999 < 2 ^ 23 * nanosPerSecond := by decide
  have hquarter : PlainSeconds (250 * nanosPerMilli) ".25".toList :=
    ⟨[], ['2', '5'], _, 25, rfl, .point _, by decide, by decide⟩
  have hminute : PlainSeconds (60 * nanosPerSecond) "60.".toList :=
    ⟨['6', '0'], [], _, 60, rfl, .point _, by decide, by decide⟩
  have hlong : PlainSeconds (9007199254740991 * nanosPerSecond) "9007199254740991".toList :=
    ⟨"9007199254740991".toList, [], _, 9007199254740991, rfl, .none, by decide, by decide⟩
  exact ⟨hpadded, hlast, hbound, hbelow _ _ _ hpadded hlast hbound,
    hmillis _ _ 250 (hself _) hquarter (by decide),
    hclock _ _ _ "060".toList 60 (hself _) hminute (hself _) (by decide) (by decide),
    hwhole _ _ _ (hself _) hlong (by decide)⟩

/-- From `2 ^ 23` seconds on the first rounding can be off by a whole nanosecond. -/
example : read "8388608.000000001" = some ⟨8388608, 2⟩ := by decide +kernel

end Duration

end Rundown
