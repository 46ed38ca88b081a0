import Mathlib.Data.List.Nodup

/-!
# Members and their keys

Objects, parallel groups and mailboxes are lists of members under keys.  Where no key comes twice,
what stands under a key and what a look for the key finds is the same.
-/

namespace Rundown

variable {κ α : Type} {l : List (κ × α)} {key : κ} {x x' : α}

/-- Of members with different keys, one stands under a key. -/
theorem eq_of_key (h : (l.map Prod.fst).Nodup) (hx : (key, x) ∈ l) (hx' : (key, x') ∈ l) :
    x = x' :=
  congrArg Prod.snd (List.inj_on_of_nodup_map h hx hx' rfl)

variable [BEq κ] [LawfulBEq κ]

theorem mem_of_lookup (h : l.lookup key = some x) : (key, x) ∈ l := by
  obtain ⟨l₁, l₂, rfl, -⟩ := List.lookup_eq_some_iff.1 h
  exact List.mem_append_right _ List.mem_cons_self

theorem lookup_eq_none_iff : l.lookup key = none ↔ key ∉ l.map Prod.fst := by
  rw [List.lookup_eq_none_iff, List.mem_map]
  constructor
  · rintro h ⟨m, hm, rfl⟩
    exact absurd (h m hm) (by simp)
  · intro h m hm
    exact bne_iff_ne.2 fun he => h ⟨m, hm, he.symm⟩

theorem lookup_of_mem (hkeys : (l.map Prod.fst).Nodup) (h : (key, x) ∈ l) :
    l.lookup key = some x := by
  cases hl : l.lookup key with
  | none => exact absurd (List.mem_map_of_mem h) (lookup_eq_none_iff.1 hl)
  | some y => rw [eq_of_key hkeys (mem_of_lookup hl) h]

end Rundown
