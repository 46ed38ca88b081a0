import Mathlib.Data.List.Lex
import Mathlib.Data.String.Basic
import Mathlib.Data.UInt

/-!
# Texts and their bytes

Texts are compared by their code points.  That is the order of their UTF-8 bytes
(`Text.bytes_lt_iff`): the encodings of two code points differ at some byte, and the first such byte
decides as the code points do.
-/

namespace Rundown.Text

/-- The bytes of a text in UTF-8. -/
def bytes (s : String) : List UInt8 := s.toUTF8.data.toList

theorem bytes_eq (s : String) : bytes s = s.toList.flatMap String.utf8EncodeChar := by
  have h : s.toUTF8 = (s.toList.flatMap String.utf8EncodeChar).toByteArray := by
    rw [← List.utf8Encode, ← String.toByteArray_ofList, String.ofList_toList]
    rfl
  rw [bytes, h]
  simp

/-- Of two code points, the lesser has the lesser encoding, whatever comes after. -/
theorem utf8EncodeChar_append_lt {c c' : Char} (h : c < c') (rest rest' : List UInt8) :
    String.utf8EncodeChar c ++ rest < String.utf8EncodeChar c' ++ rest' := by
  have hlt : c.val.toNat < c'.val.toNat := h
  have hvalid : c'.val.toNat < 1114112 := by
    rcases c'.valid with hlow | hhigh
    · exact Nat.lt_trans hlow (by decide)
    · exact hhigh.2
  unfold String.utf8EncodeChar
  dsimp only
  generalize c.val.toNat = v at *
  generalize c'.val.toNat = v' at *
  -- Each encoding has one of four lengths, and a longer one starts with a greater byte.
  split <;> [skip; split <;> [skip; split]] <;>
    (split <;> [skip; split <;> [skip; split]]) <;>
    simp (disch := omega) only [List.cons_append, List.nil_append, List.cons_lt_cons_iff,
      UInt8.lt_iff_toNat_lt, ← UInt8.toNat_inj, UInt8.toNat_ofNat', Nat.mod_eq_of_lt] <;>
    omega

theorem encodeAll_lt {l l' : List Char} (h : l < l') :
    l.flatMap String.utf8EncodeChar < l'.flatMap String.utf8EncodeChar := by
  induction h with
  | @nil c l =>
    obtain ⟨byte, bytes, hbytes⟩ :=
      List.exists_cons_of_ne_nil (String.utf8EncodeChar_ne_nil (c := c))
    rw [List.flatMap_cons, hbytes]
    exact List.nil_lt_cons _ _
  | rel hlt => exact utf8EncodeChar_append_lt hlt _ _
  | @cons c l l' _ ih =>
    rw [List.flatMap_cons, List.flatMap_cons]
    exact List.append_left_lt ih

/-- Texts are ordered as their bytes are. -/
theorem bytes_lt_iff {s s' : String} : bytes s < bytes s' ↔ s < s' := by
  have forward {s s' : String} (h : s < s') : bytes s < bytes s' := by
    rw [bytes_eq, bytes_eq]
    exact encodeAll_lt (String.lt_iff_toList_lt.1 h)
  refine ⟨fun h => ?_, forward⟩
  rcases lt_trichotomy s s' with hlt | rfl | hgt
  · exact hlt
  · exact absurd h (List.lt_irrefl _)
  · exact absurd h (List.lt_asymm (forward hgt))

end Rundown.Text
