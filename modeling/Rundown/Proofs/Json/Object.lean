import Mathlib.Data.List.Sort
import Mathlib.Data.String.Basic
import Rundown.Json.Basic

/-!
# Objects from members

`Json.ofFields` inserts members one by one.  What it builds can be said without an order of
insertions: of the members with one key the last stays, and keys ascend (`Json.ofFields_eq`).
-/

namespace Rundown.Json

/-- Of the members with one key, only the last. -/
def latest : List (String × Json) → List (String × Json)
  | [] => []
  | m :: rest => if m.1 ∈ rest.map Prod.fst then latest rest else m :: latest rest

/-- The object that maps every key of the members to its last value, and has no other key. -/
def objectOf (members : List (String × Json)) : Json :=
  object ((latest members).mergeSort fun m m' => decide (m.1 ≤ m'.1))

/-- The keys ascend. -/
abbrev Ascending (fields : List (String × Json)) : Prop := fields.Pairwise fun m m' => m.1 < m'.1

variable {key : String} {value : Json} {fields members : List (String × Json)}
  {m : String × Json}

theorem mem_insertField (h : Ascending fields) :
    m ∈ insertField key value fields ↔ m = (key, value) ∨ (m.1 ≠ key ∧ m ∈ fields) := by
  induction fields with
  | nil => simp [insertField]
  | cons f rest ih =>
    obtain ⟨k, v⟩ := f
    obtain ⟨hlater, hrest⟩ := List.pairwise_cons.1 h
    have hne : m ∈ rest → ¬key < k → m.1 = key → k = key → False := by
      intro hm _ he hk
      have := hlater m hm
      rw [he, hk] at this
      exact lt_irrefl _ this
    have hbefore : m ∈ (k, v) :: rest → key < k → m.1 ≠ key := by
      intro hm hlt he
      rcases List.mem_cons.1 hm with rfl | hm
      · exact ne_of_gt hlt he
      · exact ne_of_gt (hlt.trans (hlater m hm)) he
    unfold insertField
    split
    · rw [List.mem_cons]
      exact or_congr_right ⟨fun hm => ⟨hbefore hm ‹_›, hm⟩, And.right⟩
    · split
      next hlt hk =>
        subst hk
        rw [List.mem_cons, List.mem_cons]
        refine or_congr_right ⟨fun hm => ⟨fun he => hne hm hlt he rfl, .inr hm⟩, ?_⟩
        rintro ⟨he, rfl | hm⟩
        · exact (he rfl).elim
        · exact hm
      next hlt hk =>
        rw [List.mem_cons, ih hrest, List.mem_cons]
        constructor
        · rintro (rfl | h | h)
          · exact .inr ⟨fun he => hk he.symm, .inl rfl⟩
          · exact .inl h
          · exact .inr ⟨h.1, .inr h.2⟩
        · rintro (h | ⟨he, h | h⟩)
          · exact .inr (.inl h)
          · exact .inl h
          · exact .inr (.inr ⟨he, h⟩)

theorem Ascending.insertField (h : Ascending fields) (key : String) (value : Json) :
    Ascending (insertField key value fields) := by
  induction fields with
  | nil => exact List.pairwise_singleton _ _
  | cons f rest ih =>
    obtain ⟨k, v⟩ := f
    obtain ⟨hlater, hrest⟩ := List.pairwise_cons.1 h
    unfold Json.insertField
    split
    next hlt =>
      refine List.pairwise_cons.2 ⟨?_, h⟩
      intro m hm
      rcases List.mem_cons.1 hm with rfl | hm
      · exact hlt
      · exact hlt.trans (hlater m hm)
    next hlt =>
      split
      next hk =>
        subst hk
        exact List.pairwise_cons.2 ⟨hlater, hrest⟩
      next hk =>
        refine List.pairwise_cons.2 ⟨?_, ih hrest⟩
        intro m hm
        rcases (mem_insertField hrest).1 hm with rfl | ⟨-, hm⟩
        · exact lt_of_le_of_ne (not_lt.1 hlt) (Ne.symm hk)
        · exact hlater m hm

theorem mem_latest_cons {k : String} {v : Json} :
    m ∈ latest ((k, v) :: members) ↔
      m ∈ latest members ∨ (m = (k, v) ∧ k ∉ members.map Prod.fst) := by
  rw [latest]
  split
  next hk => exact ⟨.inl, fun h => h.elim id fun h => (h.2 hk).elim⟩
  next hk =>
    rw [List.mem_cons]
    exact ⟨fun h => h.elim (fun h => .inr ⟨h, hk⟩) .inl, fun h => h.elim .inr fun h => .inl h.1⟩

theorem mem_of_mem_latest (h : m ∈ latest members) : m ∈ members := by
  induction members with
  | nil => cases h
  | cons f rest ih =>
    rcases mem_latest_cons.1 h with h | h
    · exact List.mem_cons_of_mem _ (ih h)
    · exact h.1 ▸ List.mem_cons_self

theorem nodup_latest (members : List (String × Json)) : ((latest members).map Prod.fst).Nodup := by
  induction members with
  | nil => exact List.nodup_nil
  | cons f rest ih =>
    unfold latest
    split
    · exact ih
    next hk =>
      refine List.nodup_cons.2 ⟨fun hm => hk ?_, ih⟩
      obtain ⟨m, hm, he⟩ := List.mem_map.1 hm
      exact he ▸ List.mem_map_of_mem (mem_of_mem_latest hm)

/-- What is left after members have been inserted: the last of them for each key, and the fields
that none of them replaced. -/
theorem foldl_insertField (members : List (String × Json)) (h : Ascending fields) :
    Ascending (members.foldl (fun sorted (k, v) => insertField k v sorted) fields) ∧
      ∀ m, m ∈ members.foldl (fun sorted (k, v) => insertField k v sorted) fields ↔
        m ∈ latest members ∨ (m ∈ fields ∧ m.1 ∉ members.map Prod.fst) := by
  induction members generalizing fields with
  | nil => simp [latest, h]
  | cons f rest ih =>
    obtain ⟨k, v⟩ := f
    obtain ⟨hascending, hmem⟩ := ih (h.insertField k v)
    refine ⟨hascending, ?_⟩
    intro m
    rw [List.foldl_cons, hmem, mem_insertField h, mem_latest_cons, List.map_cons, List.mem_cons]
    constructor
    · rintro (h | ⟨rfl | h, hr⟩)
      · exact .inl (.inl h)
      · exact .inl (.inr ⟨rfl, hr⟩)
      · exact .inr ⟨h.2, fun hm => hm.elim h.1 hr⟩
    · rintro ((h | ⟨rfl, hr⟩) | ⟨hm, hr⟩)
      · exact .inl h
      · exact .inr ⟨.inl rfl, hr⟩
      · exact .inr ⟨.inr ⟨fun he => hr (.inl he), hm⟩, fun hm => hr (.inr hm)⟩

theorem ofFields_eq (members : List (String × Json)) : ofFields members = objectOf members := by
  obtain ⟨hascending, hmem⟩ := foldl_insertField members .nil
  refine congrArg object (hascending.eq_of_mem_iff ?_ ?_)
  · have hsorted : ((latest members).mergeSort
        fun m m' => decide (m.1 ≤ m'.1)).Pairwise fun m m' => decide (m.1 ≤ m'.1) = true :=
      List.pairwise_mergeSort
        (fun _ _ _ h h' => by simpa using (of_decide_eq_true h).trans (of_decide_eq_true h'))
        (fun m m' => by simpa using le_total m.1 m'.1) (latest members)
    have hnodup : ((latest members).mergeSort
        fun m m' => decide (m.1 ≤ m'.1)).Pairwise fun m m' => m.1 ≠ m'.1 :=
      List.pairwise_map.1 (((List.mergeSort_perm _ _).map Prod.fst).nodup_iff.2
        (nodup_latest members))
    exact hsorted.imp₂ (fun m m' hle hne => lt_of_le_of_ne (of_decide_eq_true hle) hne) hnodup
  · intro m
    rw [hmem, List.mem_mergeSort]
    simp

theorem mem_latest (h : (members.map Prod.fst).Nodup) : m ∈ latest members ↔ m ∈ members := by
  induction members with
  | nil => exact .rfl
  | cons f rest ih =>
    obtain ⟨k, v⟩ := f
    obtain ⟨hk, hrest⟩ := List.nodup_cons.1 h
    rw [mem_latest_cons, ih hrest, and_iff_left hk, List.mem_cons, or_comm]

/-- The order of members with different keys does not matter. -/
theorem objectOf_congr {members' : List (String × Json)} (h : (members.map Prod.fst).Nodup)
    (h' : (members'.map Prod.fst).Nodup) (hmem : ∀ m, m ∈ members ↔ m ∈ members') :
    objectOf members = objectOf members' := by
  obtain ⟨hascending, hfields⟩ := foldl_insertField members .nil
  obtain ⟨hascending', hfields'⟩ := foldl_insertField members' .nil
  rw [← ofFields_eq, ← ofFields_eq]
  refine congrArg object (hascending.eq_of_mem_iff hascending' fun m => ?_)
  rw [hfields, hfields', mem_latest h, mem_latest h', hmem]
  simp

end Rundown.Json
