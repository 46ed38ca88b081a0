import Rundown.Descriptor.Classify

/-!
# When a value can be read

`Descriptor.ofJson` reads a group exactly when it reads all that is in it.  The lemmas here say so,
one for each function of the reader and each shape of a value, and what the descriptor is then.
-/

namespace Rundown

namespace Descriptor

variable {limit level index : Nat} {path : Path} {d : Descriptor} {item : Json} {items : List Json}
  {nodes : List Descriptor} {key : String} {fields : List (String × Json)}
  {branches : List (String × Descriptor)}

section

variable {α β : Type} {r : Except DescriptorError α} {b : β}

theorem bind_eq_ok_iff {f : α → Except DescriptorError β} :
    (r >>= f) = .ok b ↔ ∃ a, r = .ok a ∧ f a = .ok b := by
  cases r <;> simp [bind, Except.bind]

theorem map_eq_ok_iff {f : α → β} : f <$> r = .ok b ↔ ∃ a, r = .ok a ∧ f a = b := by
  cases r <;> simp [Functor.map, Except.map]

end

theorem ofJsonAt_array_iff : ofJsonAt limit path level (.array items) = .ok d ↔
    level ≤ limit ∧ ∃ nodes, ofJsonItems limit path level 0 items = .ok nodes ∧
      sequence nodes = d := by
  rw [ofJsonAt]
  split
  next hlimit => exact iff_of_false nofun fun h => by omega
  next hlimit => rw [map_eq_ok_iff, and_iff_right (by omega)]

/-- An object that names an action is that action. -/
theorem ofJsonAt_action_iff {value : Json} (h : fields.lookup ActionRef.nameKey = some value) :
    ofJsonAt limit path level (.object fields) = .ok d ↔ ∃ name, value = .string name ∧
      action ⟨name, (fields.lookup ActionRef.optionsKey).getD .null⟩ = d := by
  rw [ofJsonAt, h]
  cases value <;> simp

theorem ofJsonAt_parallel_iff (h : fields.lookup ActionRef.nameKey = none) :
    ofJsonAt limit path level (.object fields) = .ok d ↔
      level ≤ limit ∧ ∃ branches, ofJsonBranches limit path level fields = .ok branches ∧
        parallel branches = d := by
  rw [ofJsonAt, h]
  dsimp only
  split
  next hlimit => exact iff_of_false nofun fun h => by omega
  next hlimit => rw [map_eq_ok_iff, and_iff_right (by omega)]

theorem ofJsonItems_cons_iff : ofJsonItems limit path level index (item :: items) = .ok nodes ↔
    ∃ node rest, ofJsonAt limit (path ++ [.index index]) (level + 1) item = .ok node ∧
      ofJsonItems limit path level (index + 1) items = .ok rest ∧ node :: rest = nodes := by
  simp only [ofJsonItems, bind_eq_ok_iff, Except.ok.injEq, exists_and_left]

theorem ofJsonBranches_cons_iff {value : Json} :
    ofJsonBranches limit path level ((key, value) :: fields) = .ok branches ↔
      ∃ node rest, ofJsonAt limit (path ++ [.key key]) (level + 1) value = .ok node ∧
        ofJsonBranches limit path level fields = .ok rest ∧ (key, node) :: rest = branches := by
  simp only [ofJsonBranches, bind_eq_ok_iff, Except.ok.injEq, exists_and_left]

end Descriptor

end Rundown
