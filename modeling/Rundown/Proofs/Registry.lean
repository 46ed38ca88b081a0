import Rundown.Proofs.Compiler
import Rundown.Proofs.World.Tended

/-!
# What a registry builds

`Registry.resolve_register`: the last registration of a name counts.  With the built-in constructors
alone, every action that is built does one of the plain things when it begins
(`Compiler.Builds.plain`).
-/

namespace Rundown

namespace Registry

theorem lookup_insert (name n : String) (c : Constructor) (entries : List (String × Constructor)) :
    (insert name c entries).lookup n = if n = name then some c else entries.lookup n := by
  induction entries with
  | nil => simp only [insert, List.lookup_cons, List.lookup_nil]; split <;> simp_all
  | cons entry rest ih =>
    obtain ⟨m, old⟩ := entry
    unfold insert
    split
    · rw [List.lookup_cons]
      split <;> simp_all
    · split
      · next heq =>
        subst heq
        rw [List.lookup_cons, List.lookup_cons]
        split <;> simp_all
      · next hne =>
        rw [List.lookup_cons, List.lookup_cons, ih]
        by_cases hn : n = m
        · subst hn
          simp [Ne.symm hne]
        · simp [beq_eq_false_iff_ne.2 hn]

/-- The last registration of a name counts, and other names keep what they have. -/
theorem resolve_register (r : Registry) (name n : String) (c : Constructor) :
    (r.register name c).resolve n = if n = name then some c else r.resolve n :=
  lookup_insert name n c r.entries

/-- The registry of the built-in actions. -/
def builtins : Registry := empty.registerBuiltins

theorem resolve_builtins {n : String} {c : Constructor} (h : builtins.resolve n = some c) :
    c = Action.waitOf ∨ c = Action.stopOf ∨ c = Action.awaitSignalOf ∨ c = Action.emitSignalOf := by
  simp only [builtins, registerBuiltins, resolve_register] at h
  split at h
  · exact .inr (.inr (.inr (Option.some.inj h).symm))
  split at h
  · exact .inr (.inr (.inl (Option.some.inj h).symm))
  split at h
  · exact .inr (.inl (Option.some.inj h).symm)
  split at h
  · exact .inl (Option.some.inj h).symm
  · cases h

end Registry

namespace Compiler

variable {c : Compiler} {ref : ActionRef} {action action' : Action}

/-- A reference is built as one action at most. -/
theorem Builds.unique (h : c.Builds ref action) (h' : c.Builds ref action') : action = action' := by
  obtain ⟨constructor, hr, ha⟩ := h
  obtain ⟨constructor', hr', ha'⟩ := h'
  rw [hr] at hr'
  cases hr'
  rw [ha] at ha'
  exact Except.ok.inj ha'

/-- What a built-in constructor builds does one of the plain things when it begins. -/
theorem Builds.plain (hregistry : c.registry = .builtins) (h : c.Builds ref action) (input : Json) :
    Plain (action.onBegin input) := by
  obtain ⟨constructor, hr, ha⟩ := h
  rw [hregistry] at hr
  rcases Registry.resolve_builtins hr with rfl | rfl | rfl | rfl
  · unfold Action.waitOf at ha
    cases ho : readWait ref.options with
    | error e =>
      rw [ho] at ha
      cases ha
    | ok o =>
      rw [ho] at ha
      cases ha
      exact .wait _ _
  · unfold Action.stopOf at ha
    cases ho : readOptions stopOptions ref.options with
    | error e =>
      rw [ho] at ha
      cases ha
    | ok o =>
      rw [ho] at ha
      cases ha
      exact .settle _
  · unfold Action.awaitSignalOf at ha
    cases ho : readOptions awaitSignalOptions ref.options with
    | error e =>
      rw [ho] at ha
      cases ha
    | ok o =>
      rw [ho] at ha
      cases ha
      exact .listen _
  · unfold Action.emitSignalOf at ha
    cases ho : readOptions EmitSignalOptions.recordType ref.options with
    | error e =>
      rw [ho] at ha
      cases ha
    | ok o =>
      rw [ho] at ha
      cases ha
      exact .emit _ _

end Compiler

end Rundown
