import Rundown.Proofs.Json.Object
import Rundown.Signal.Basic

/-!
# Signals as JSON values

A value stands for a signal if it is an object with the members of one, whatever else it holds
(`Signal.Denotes`); these are the values that are read (`Signal.ofJson_eq_ok_iff`).  Each of them is
written back without its other members and with its kind as a word (`Json.reduced`), which is the
one normal form of the signal (`Signal.encoding_spec`).
-/

namespace Rundown

namespace Json

/-- A kind that is given by its index, as its word. -/
def spelledKind : Json → Json
  | int 0 => string "complete"
  | int 1 => string "fail"
  | kind => kind

/-- The value with its name, its kind as a word, and what belongs to the kind: the payload, which is
null when it is absent, or the reason. -/
def reduced (v : Json) : Json :=
  let kind := ((v.field? "kind").getD null).spelledKind
  let content := if kind = string "complete" then "payload" else "reason"
  objectOf [("name", (v.field? "name").getD null), ("kind", kind),
    (content, (v.field? content).getD null)]

end Json

namespace Signal

/-- The value has the kind, and with it the payload, null if there is none, or the reason. -/
inductive Tells (v : Json) : SignalKind → Prop
  | complete {payload : Json}
      (hkind : v.field? "kind" = some (.string "complete") ∨ v.field? "kind" = some (.int 0))
      (hpayload : (v.field? "payload").getD .null = payload) : Tells v (.complete payload)
  | fail {reason : String}
      (hkind : v.field? "kind" = some (.string "fail") ∨ v.field? "kind" = some (.int 1))
      (hreason : v.field? "reason" = some (.string reason)) : Tells v (.fail reason)

/-- The value is an object with the members of the signal, whatever else it holds. -/
structure Denotes (v : Json) (s : Signal) : Prop where
  name : v.field? "name" = some (.string s.name)
  tells : Tells v s.kind

variable {s t : Signal} {v w : Json}

/-! ## Reading -/

theorem asString_eq_ok_iff {name : String} : v.asString = .ok name ↔ v = .string name := by
  cases v <;> simp [Json.asString]

theorem kindIndex_eq_ok_iff {index : Nat} : kindIndex v = .ok index ↔
    (index = 0 ∧ (v = .string "complete" ∨ v = .int 0)) ∨
      (index = 1 ∧ (v = .string "fail" ∨ v = .int 1)) := by
  constructor
  · intro h
    cases v with
    | null | bool | float | array | object => cases h
    | string word =>
      by_cases hcomplete : word = "complete"
      · subst hcomplete
        cases h
        exact .inl ⟨rfl, .inl rfl⟩
      · by_cases hfail : word = "fail"
        · subst hfail
          cases h
          exact .inr ⟨rfl, .inl rfl⟩
        · have hnone : kindWords.findIdx? (· == word) = none := by
            simp [kindWords, List.findIdx?_cons, Ne.symm hcomplete, Ne.symm hfail]
          rw [kindIndex, hnone] at h
          cases h
    | int n =>
      rw [kindIndex] at h
      split at h
      next => cases h
      next hneg =>
        split at h
        next hlt =>
          have hlt : n < 2 := hlt
          cases h
          rcases (by omega : n = 0 ∨ n = 1) with rfl | rfl
          · exact .inl ⟨rfl, .inr rfl⟩
          · exact .inr ⟨rfl, .inr rfl⟩
        next => cases h
  · rintro (⟨rfl, rfl | rfl⟩ | ⟨rfl, rfl | rfl⟩) <;> rfl

theorem kindOf_eq_ok_iff {members : List (String × Json)} {kind : SignalKind} :
    kindOf members = .ok kind ↔ Tells (.object members) kind := by
  constructor
  · intro h
    unfold kindOf at h
    split at h
    next => cases h
    next value hvalue =>
      rcases hindex : kindIndex value with error | index
      · rw [hindex] at h
        cases h
      · rw [hindex] at h
        rcases kindIndex_eq_ok_iff.1 hindex with ⟨rfl, hkind⟩ | ⟨rfl, hkind⟩
        · cases h
          exact .complete (by simpa [Json.field?, hvalue] using hkind) rfl
        · simp only [bind, Except.bind, Nat.one_ne_zero, if_false] at h
          split at h
          next => cases h
          next reason hreason =>
            rcases hstring : reason.asString with error | text
            · rw [hstring] at h
              cases h
            · rw [hstring] at h
              cases h
              obtain rfl := asString_eq_ok_iff.1 hstring
              exact .fail (by simpa [Json.field?, hvalue] using hkind) hreason
  · rintro (⟨hkind, rfl⟩ | ⟨hkind, hreason⟩)
    · rcases hkind with hkind | hkind <;>
        · rw [Json.field?] at hkind
          simp only [kindOf, hkind]
          rfl
    · rw [Json.field?] at hreason
      rcases hkind with hkind | hkind <;>
        · rw [Json.field?] at hkind
          simp only [kindOf, hkind, hreason]
          rfl

/-- A value is read as a signal exactly when it denotes it. -/
theorem ofJson_eq_ok_iff : ofJson v = .ok s ↔ Denotes v s := by
  cases v with
  | null | bool | int | float | string | array =>
    constructor
    · intro h
      cases h
    · intro h
      cases h.name
  | object members =>
    constructor
    · intro h
      rw [ofJson] at h
      split at h
      next => cases h
      next value hvalue =>
        rcases hstring : value.asString with error | name
        · rw [hstring] at h
          cases h
        · rcases hkind : kindOf members with error | kind
          · rw [hstring, hkind] at h
            cases h
          · rw [hstring, hkind] at h
            cases h
            obtain rfl := asString_eq_ok_iff.1 hstring
            exact ⟨hvalue, kindOf_eq_ok_iff.1 hkind⟩
    · rintro ⟨hname, htells⟩
      rw [Json.field?] at hname
      simp only [ofJson, hname, kindOf_eq_ok_iff.2 htells]
      rfl

/-! ## Writing -/

/-- What is written for a signal denotes it. -/
theorem denotes_toJson (s : Signal) : Denotes s.toJson s := by
  obtain ⟨name, payload | reason⟩ := s
  · exact ⟨rfl, .complete (.inl rfl) rfl⟩
  · exact ⟨rfl, .fail (.inl rfl) rfl⟩

/-- What is written for a signal is the normal form of every value that denotes it. -/
theorem Denotes.toJson_eq (h : Denotes v s) : s.toJson = v.reduced := by
  obtain ⟨name, kind⟩ := s
  obtain ⟨hname, htells⟩ := h
  rw [toJson, Json.ofFields_eq]
  cases htells with
  | complete hkind hpayload =>
    have hword : ((v.field? "kind").getD .null).spelledKind = .string "complete" := by
      rcases hkind with hkind | hkind <;> rw [hkind] <;> rfl
    simp only [Json.reduced, hword, hname, if_true, hpayload, Option.getD_some, members]
  | fail hkind hreason =>
    have hword : ((v.field? "kind").getD .null).spelledKind = .string "fail" := by
      rcases hkind with hkind | hkind <;> rw [hkind] <;> rfl
    have hne : Json.string "fail" ≠ .string "complete" := by decide
    simp only [Json.reduced, hword, hname, if_neg hne, hreason, Option.getD_some, members]

theorem ofJson_toJson (s : Signal) : ofJson s.toJson = .ok s :=
  ofJson_eq_ok_iff.2 (denotes_toJson s)

/-- Signals and their values.  Every signal is read back from what is written for it.  A value is
read as a signal exactly when it denotes it, and what is then written is the value reduced to the
members of the signal, with its kind as a word.  So two values are read as one signal exactly when
they are reduced to the same value, and different signals are written differently. -/
theorem encoding_spec :
    (∀ s : Signal, ofJson s.toJson = .ok s) ∧
    (∀ v s, ofJson v = .ok s ↔ Denotes v s) ∧
    (∀ v s, ofJson v = .ok s → s.toJson = v.reduced) ∧
    (∀ v w s t, ofJson v = .ok s → ofJson w = .ok t → (s = t ↔ v.reduced = w.reduced)) ∧
    Function.Injective toJson := by
  have hinjective : Function.Injective toJson := fun s t h => by
    have hs := ofJson_toJson s
    rw [h, ofJson_toJson] at hs
    exact (Except.ok.inj hs).symm
  have hreduced (v : Json) (s : Signal) (h : ofJson v = .ok s) : s.toJson = v.reduced :=
    (ofJson_eq_ok_iff.1 h).toJson_eq
  refine ⟨ofJson_toJson, fun v s => ofJson_eq_ok_iff, hreduced, ?_, hinjective⟩
  intro v w s t hv hw
  rw [← hreduced v s hv, ← hreduced w t hw, hinjective.eq_iff]

/-- A signal that fails its listeners, given by the index of its kind and with members that it has
no use for, and the same signal without them. -/
theorem encoding_spec_indexed :
    ofJson (.object [("extra", .null), ("kind", .int 1), ("name", .string "tour.next"),
        ("payload", .object [("kind", .int 0)]), ("reason", .string "boom")]) =
      .ok ⟨"tour.next", .fail "boom"⟩ ∧
    ofJson (.object [("kind", .string "fail"), ("name", .string "tour.next"),
        ("reason", .string "boom")]) = .ok ⟨"tour.next", .fail "boom"⟩ ∧
    Json.reduced (.object [("extra", .null), ("kind", .int 1), ("name", .string "tour.next"),
        ("payload", .object [("kind", .int 0)]), ("reason", .string "boom")]) =
      Json.reduced (.object [("kind", .string "fail"), ("name", .string "tour.next"),
        ("reason", .string "boom")]) := by
  obtain ⟨-, -, -, hsame, -⟩ := encoding_spec
  have hindexed : ofJson (.object [("extra", .null), ("kind", .int 1),
      ("name", .string "tour.next"), ("payload", .object [("kind", .int 0)]),
      ("reason", .string "boom")]) = .ok ⟨"tour.next", .fail "boom"⟩ := rfl
  have hworded : ofJson (.object [("kind", .string "fail"), ("name", .string "tour.next"),
      ("reason", .string "boom")]) = .ok ⟨"tour.next", .fail "boom"⟩ := rfl
  exact ⟨hindexed, hworded, (hsame _ _ _ _ hindexed hworded).1 rfl⟩

end Signal

end Rundown
