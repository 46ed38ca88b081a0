import Mathlib.Data.List.Induction
import Mathlib.Data.List.TakeWhile
import Rundown.Descriptor.Path

/-!
# The text of a path

A path is written without any escapes, and so a key that holds a dot or an opening bracket may read
like several steps.  Where no key does (`Path.Plain`), these two characters show where every step
starts, and the text of a path leads back to the path (`Path.render_inj`).
-/

namespace Rundown

variable {c : Char} {cs cs' rest rest' : List Char} {s s' : Segment} {p p' : Path}

/-- A step whose text holds neither a dot nor an opening bracket but for its first character. -/
def Segment.Plain : Segment → Prop
  | index _ => True
  | key name => '.' ∉ name.toList ∧ '[' ∉ name.toList

instance : (s : Segment) → Decidable s.Plain
  | .index _ => inferInstanceAs (Decidable True)
  | .key name => inferInstanceAs (Decidable ('.' ∉ name.toList ∧ '[' ∉ name.toList))

/-- All keys on the way are plain. -/
def Path.Plain (p : Path) : Prop := ∀ s ∈ p, s.Plain

instance (p : Path) : Decidable p.Plain := inferInstanceAs (Decidable (∀ s ∈ p, s.Plain))

/-! ## Where a step starts -/

namespace PathText

/-- Whether a step starts at this character. -/
def starts (c : Char) : Bool := c == '.' || c == '['

theorem starts_eq_false_iff : starts c = false ↔ c ≠ '.' ∧ c ≠ '[' := by
  simp [starts]

/-- The text is at its end, or a step starts. -/
def AtStart (rest : List Char) : Prop := ∀ c ∈ rest.head?, starts c = true

/-- What stands up to the next start of a step is found again. -/
theorem append_inj (hcs : ∀ c ∈ cs, starts c = false) (hcs' : ∀ c ∈ cs', starts c = false)
    (hrest : AtStart rest) (hrest' : AtStart rest') (h : cs ++ rest = cs' ++ rest') :
    cs = cs' ∧ rest = rest' := by
  have upTo {cs rest : List Char} (hcs : ∀ c ∈ cs, starts c = false) (hrest : AtStart rest) :
      (cs ++ rest).takeWhile (!starts ·) = cs := by
    rw [List.takeWhile_append_of_pos fun c hc => by rw [hcs c hc]; rfl]
    cases rest with
    | nil => rw [List.takeWhile_nil, List.append_nil]
    | cons c rest =>
      have hc : starts c = true := hrest c rfl
      rw [List.takeWhile_cons_of_neg (by rw [hc]; decide), List.append_nil]
  -- both texts are what comes before the first start of a step
  have heq : cs = cs' := by
    rw [← upTo hcs hrest, h, upTo hcs' hrest']
  subst heq
  exact ⟨rfl, List.append_cancel_left h⟩

end PathText

open PathText

/-! ## Steps -/

namespace Segment

theorem toList_render_index (n : Nat) :
    (index n).render.toList = '[' :: (Nat.toDigits 10 n ++ [']']) := by
  simp [render]

theorem toList_render_key (name : String) : (key name).render.toList = '.' :: name.toList := by
  simp [render]

/-- Different steps are written differently. -/
theorem render_inj (h : s.render = s'.render) : s = s' := by
  rw [← String.toList_inj] at h
  cases s <;> cases s' <;> simp only [toList_render_index, toList_render_key] at h
  case index.index n n' =>
    have hdigits : Nat.toDigits 10 n = Nat.toDigits 10 n' :=
      List.append_cancel_right (List.cons.inj h).2
    rw [← Nat.ofDigitChars_ten_toDigits (n := n), hdigits, Nat.ofDigitChars_ten_toDigits]
  case key.key name name' => rw [String.toList_inj.1 (List.cons.inj h).2]
  all_goals exact absurd (List.cons.inj h).1 (by decide)

/-- The text of a plain step starts as a step does, and nowhere in it another step starts. -/
theorem Plain.toList_render (h : s.Plain) : ∃ c cs, s.render.toList = c :: cs ∧ starts c = true ∧
    ∀ c ∈ cs, starts c = false := by
  cases s with
  | index n =>
    refine ⟨_, _, toList_render_index n, rfl, fun c hc => starts_eq_false_iff.2 ?_⟩
    rcases List.mem_append.1 hc with hdigit | hbracket
    · have hc : c.isDigit = true := Nat.isDigit_of_mem_toDigits (by decide) (by decide) hdigit
      constructor <;> rintro rfl <;> exact absurd hc (by decide)
    · obtain rfl := List.mem_singleton.1 hbracket
      decide
  | key name =>
    refine ⟨_, _, toList_render_key name, rfl, fun c hc => starts_eq_false_iff.2 ⟨?_, ?_⟩⟩
    · rintro rfl
      exact h.1 hc
    · rintro rfl
      exact h.2 hc

/-- The first step is found again in the text of several. -/
theorem Plain.append_inj (h : s.Plain) (h' : s'.Plain) (hrest : AtStart rest)
    (hrest' : AtStart rest') (heq : s.render.toList ++ rest = s'.render.toList ++ rest') :
    s = s' ∧ rest = rest' := by
  obtain ⟨c, cs, hs, -, hcs⟩ := h.toList_render
  obtain ⟨c', cs', hs', -, hcs'⟩ := h'.toList_render
  rw [hs, hs', List.cons_append, List.cons_append, List.cons.injEq] at heq
  obtain ⟨rfl, rfl⟩ := PathText.append_inj hcs hcs' hrest hrest' heq.2
  refine ⟨render_inj (String.toList_inj.1 ?_), rfl⟩
  rw [hs, hs', heq.1]

end Segment

/-! ## Paths -/

namespace Path

/-- A step down adds its text. -/
theorem render_concat (p : Path) (s : Segment) : render (p ++ [s]) = p.render ++ s.render := by
  rw [render, List.foldl_append]
  rfl

theorem toList_render (p : Path) :
    p.render.toList = '$' :: p.flatMap fun s => s.render.toList := by
  induction p using List.reverseRecOn with
  | nil => rfl
  | append_singleton p s ih => simp [render_concat, ih]

theorem plain_of_keys (h : ∀ key, .key key ∈ p → (Segment.key key).Plain) : p.Plain := by
  intro s hs
  cases s with
  | index n => trivial
  | key key => exact h key hs

theorem plain_cons : Plain (s :: p) ↔ s.Plain ∧ p.Plain := List.forall_mem_cons

theorem Plain.atStart (h : p.Plain) : AtStart (p.flatMap fun s => s.render.toList) := by
  cases p with
  | nil => exact nofun
  | cons s p =>
    obtain ⟨c, cs, hs, hc, -⟩ := (plain_cons.1 h).1.toList_render
    rw [List.flatMap_cons, hs]
    rintro c' ⟨⟩
    exact hc

/-- The steps of a plain path are found again in its text. -/
theorem Plain.flatMap_inj (h : p.Plain) (h' : p'.Plain)
    (heq : (p.flatMap fun s => s.render.toList) = p'.flatMap fun s => s.render.toList) :
    p = p' := by
  induction p generalizing p' with
  | nil =>
    cases p' with
    | nil => rfl
    | cons s' p' =>
      obtain ⟨c, cs, hs, -⟩ := (plain_cons.1 h').1.toList_render
      rw [List.flatMap_cons, hs] at heq
      cases heq
  | cons s p ih =>
    obtain ⟨hs, hp⟩ := plain_cons.1 h
    cases p' with
    | nil =>
      obtain ⟨c, cs, hs, -⟩ := hs.toList_render
      rw [List.flatMap_cons, hs] at heq
      cases heq
    | cons s' p' =>
      obtain ⟨hs', hp'⟩ := plain_cons.1 h'
      rw [List.flatMap_cons, List.flatMap_cons] at heq
      obtain ⟨rfl, hrest⟩ := hs.append_inj hs' hp.atStart hp'.atStart heq
      rw [ih hp hp' hrest]

/-- Different plain paths are written differently. -/
theorem render_inj (h : p.Plain) (h' : p'.Plain) : p.render = p'.render ↔ p = p' := by
  refine ⟨fun heq => h.flatMap_inj h' ?_, congrArg render⟩
  rw [← String.toList_inj, toList_render, toList_render] at heq
  exact (List.cons.inj heq).2

/-- With a dot in a key, one step reads like two. -/
example : render [.key "a.b"] = render [.key "a", .key "b"] := by decide

end Path

end Rundown
