import Rundown.Proofs.Engine.Turn
import Rundown.Proofs.World.Completion
import Rundown.Proofs.World.Incident

/-!
# Histories with queues

Here the tasks of a world run only when they are taken from their queues, one at a time and until
they stop; everything else comes from outside while no task runs.  So a task that is sure to run
stays queued until it does (`World.due_occur`), and a history is a sequence of incidents
(`World.exists_incidents`).
-/

namespace Rundown

/-- Whether the incident comes from outside: no task runs and none changes its place. -/
def Incident.isExternal : Incident → Bool
  | .poll _ | .expire _ | .requeue _ _ _ _ => false
  | _ => true

/-- Something that happens to a world in which one task runs at a time. -/
inductive Occurrence where
  | outside (i : Incident) (external : i.isExternal = true)
  /-- The task at this position of a queue runs. -/
  | run (queue : Queue) (index : Nat)

namespace World

/-- What an occurrence makes of a world.  Its tasks run as those of an engine without playlists. -/
def occur (w : World) : Occurrence → World
  | .outside i _ => w.incur i
  | .run queue index => ((⟨w, []⟩ : Engine).apply (.run queue index)).world

/-- The world after these occurrences. -/
def occurAll (w : World) (history : List Occurrence) : World := history.foldl occur w

/-- The task that runs. -/
def runs (w : World) : Occurrence → Option Task
  | .outside _ _ => none
  | .run queue index => (w.queue queue)[index]?

/-- The signals that an occurrence sends, in order.  The tasks of timers and listeners send none. -/
def sentBy (w : World) : Occurrence → List Signal
  | .outside i _ => w.emits i
  | .run _ _ => []

/-- The signals of a name that a history sends, in order. -/
def sendsAll (name : String) (w : World) : List Occurrence → List Signal
  | [] => []
  | o :: rest => named name (w.sentBy o) ++ (w.occur o).sendsAll name rest

/-- No task waits to be run. -/
def Idle (w : World) : Prop := w.ready = [] ∧ w.arrivals = []

instance (w : World) : Decidable w.Idle :=
  inferInstanceAs (Decidable (w.ready = [] ∧ w.arrivals = []))

variable {w w' : World} {a b : ActionId} {i : Incident} {o : Occurrence} {t u : Task} {c : Nat}
  {name : String} {history later : List Occurrence}

theorem occurAll_append : w.occurAll (history ++ later) = (w.occurAll history).occurAll later :=
  List.foldl_append

theorem sendsAll_append : w.sendsAll name (history ++ later) =
    w.sendsAll name history ++ (w.occurAll history).sendsAll name later := by
  induction history generalizing w with
  | nil => rfl
  | cons o rest ih => rw [List.cons_append, sendsAll, ih, sendsAll, List.append_assoc]; rfl

/-! ## Running a task -/

/-- What a task does while it runs. -/
def carryOut (w : World) : Task → World
  | .timer id => (w.runTimer id).1
  | .listener r => (w.runListener r).1
  | .group _ _ => w

/-- A task has been taken from its queue, has run and has stopped. -/
structure Ran (t : Task) (w w' : World) : Prop where
  started : ∃ w₁, Requeued w w₁ ∧ w₁.running = some t ∧ (∀ u, u ≠ t → w.Due u → w₁.Due u) ∧
    Requeued (w₁.carryOut t) w' ∧ ∀ u, u ≠ t → (w₁.carryOut t).Due u → w'.Due u
  idle : w'.running = none

theorem withSettled_world (w : World) (result : World × Option ActionId) :
    ((⟨w, []⟩ : Engine).withSettled result).world = result.1 := by
  obtain ⟨w', _ | a⟩ := result <;> rfl

theorem runTask_ran {w₁ : World} (hq : Requeued w w₁)
    (hdue : ∀ u, u ≠ t → w.Due u → u ∈ w₁.ready ∨ u ∈ w₁.arrivals) :
    Ran t w ((⟨w₁, []⟩ : Engine).runTask t).world := by
  have hrunning : (carryOut { w₁ with running := some t, rewoken := false } t).running =
      some t := by
    cases t with
    | timer id => exact (runTimer_settles _ id).keeps.running
    | listener r => exact (runListener_settles _ r).keeps.running
    | group id place => rfl
  have hperform : ((⟨{ w₁ with running := some t, rewoken := false }, []⟩ : Engine).perform
      t).1.world = carryOut { w₁ with running := some t, rewoken := false } t := by
    cases t with
    | timer id => exact withSettled_world _ _
    | listener r => exact withSettled_world _ _
    | group id place => rfl
  have hstop : ((⟨w₁, []⟩ : Engine).runTask t).world =
      (carryOut { w₁ with running := some t, rewoken := false } t).stop t
        ((⟨{ w₁ with running := some t, rewoken := false }, []⟩ : Engine).perform t).2 := by
    rw [← hperform]
    rfl
  have hstopped (w₂ : World) (ended : Bool) : Requeued w₂ (w₂.stop t ended) := by
    unfold stop
    split
    · exact Requeued.trans ⟨_, _, _, _, rfl⟩ (Requeued.push _ .ready t)
    · exact ⟨_, _, _, _, rfl⟩
  refine ⟨⟨{ w₁ with running := some t, rewoken := false }, hq.trans ⟨_, _, _, _, rfl⟩, rfl,
    fun u hu hd => ?_, ?_, fun u hu hd => ?_⟩, ?_⟩
  · exact (hdue u hu hd).elim .inl fun h => .inr (.inl h)
  · rw [hstop]
    exact hstopped _ _
  · rw [hstop]
    exact due_stop hrunning hd fun h => absurd h hu
  · rw [hstop]
    exact (stop_frame _ t _).2.2

/-- An occurrence that runs a task lets it run until it stops. -/
theorem occur_ran (hidle : w.running = none) (hruns : w.runs o = some t) :
    Ran t w (w.occur o) := by
  cases o with
  | outside i external => cases hruns
  | run queue index =>
    have hocc : w.occur (.run queue index) =
        ((⟨w.dequeue queue index, []⟩ : Engine).runTask t).world := by
      simp only [occur, Engine.apply, show (w.queue queue)[index]? = some t from hruns]
    rw [hocc]
    refine runTask_ran ⟨_, _, _, _, rfl⟩ fun u hu hd => ?_
    rcases due_dequeue hruns hidle hd with h | h | h
    · exact .inl h
    · exact .inr h
    · exact absurd h hu

/-- The queue is not that long. -/
theorem occur_eq_self (hinside : ∀ i external, o ≠ .outside i external)
    (hruns : w.runs o = none) : w.occur o = w := by
  cases o with
  | outside i external => exact absurd rfl (hinside i external)
  | run queue index =>
    simp only [occur, Engine.apply, show (w.queue queue)[index]? = none from hruns]

/-- A task that runs sends nothing. -/
theorem sentBy_of_runs (hruns : w.runs o = some t) : w.sentBy o = [] := by
  cases o with
  | outside i external => cases hruns
  | run => rfl

/-! ## Occurrences as incidents -/

/-- What a task does while it runs, as incidents. -/
theorem exists_incidents_carryOut (w : World) (t : Task) :
    ∃ incidents : List Incident, w.carryOut t = w.incurAll incidents ∧
      ∀ i ∈ incidents, i.isExternal = false := by
  cases t with
  | timer id => exact ⟨[.expire id], rfl, by simp [Incident.isExternal]⟩
  | listener r => exact ⟨[.poll r], rfl, by simp [Incident.isExternal]⟩
  | group id place => exact ⟨[], rfl, by simp⟩

theorem Requeued.exists_incident (h : Requeued w w') :
    ∃ i : Incident, w' = w.incur i ∧ i.isExternal = false := by
  obtain ⟨ready, arrivals, running, rewoken, rfl⟩ := h
  exact ⟨.requeue ready arrivals running rewoken, rfl, rfl⟩

/-- A task that runs is taken from its queue, does its work and is put back or not. -/
theorem Ran.exists_incidents (h : Ran t w w') :
    ∃ incidents : List Incident, w' = w.incurAll incidents ∧
      ∀ i ∈ incidents, i.isExternal = false := by
  obtain ⟨w₁, htaken, -, -, hstopped, -⟩ := h.started
  obtain ⟨i, rfl, hi⟩ := htaken.exists_incident
  obtain ⟨work, hwork, hinternal⟩ := exists_incidents_carryOut (w.incur i) t
  obtain ⟨j, rfl, hj⟩ := hstopped.exists_incident
  refine ⟨i :: work ++ [j], ?_, fun k hk => ?_⟩
  · rw [hwork, incurAll_append]
    rfl
  · simp only [List.cons_append, List.mem_cons, List.mem_append, List.not_mem_nil, or_false] at hk
    rcases hk with rfl | hk | rfl
    · exact hi
    · exact hinternal k hk
    · exact hj

/-- What incidents keep is kept by an occurrence. -/
theorem occur_induction {Q : World → Prop} (hidle : w.running = none) (h : Q w)
    (hinternal : ∀ w i, i.isExternal = false → Q w → Q (w.incur i))
    (hexternal : ∀ i external, o = .outside i external → Q (w.incur i)) : Q (w.occur o) := by
  by_cases hinside : ∀ i external, o ≠ .outside i external
  · cases hruns : w.runs o with
    | none => rwa [occur_eq_self hinside hruns]
    | some t =>
      obtain ⟨incidents, heq, hincidents⟩ := (occur_ran hidle hruns).exists_incidents
      rw [heq]
      clear heq hruns hidle hexternal
      induction incidents generalizing w with
      | nil => exact h
      | cons i rest ih =>
        exact ih (hinternal w i (hincidents i List.mem_cons_self) h)
          fun j hj => hincidents j (List.mem_cons_of_mem i hj)
  · push Not at hinside
    obtain ⟨i, external, rfl⟩ := hinside
    exact hexternal i external rfl

/-! ## What every occurrence keeps -/

/-- From outside a task can be made ready, but none is taken from its queue. -/
theorem incur_keeps (w : World) (external : i.isExternal = true) :
    Keeps (fun _ => True) w (w.incur i) := by
  cases i with
  | build action =>
    have hadded : Keeps _ w (w.addAction action).1 := .of_added rfl rfl rfl fun _ ht => ht
    exact hadded.mono fun _ _ => trivial
  | begin a v => exact (beginAction_keeps w a v).mono fun _ _ => trivial
  | settle a s => exact (settle_keeps w a s).mono fun _ _ => trivial
  | endAction a => exact (endAction_settles w a).keeps.mono fun _ _ => trivial
  | emit s => exact emit_keeps w s _
  | subscribe name =>
    change Keeps _ w (w.subscribe name).1
    unfold World.subscribe
    split <;> exact .of_unqueued rfl rfl rfl rfl rfl rfl
  | receive r | drop r => exact .of_unqueued rfl rfl rfl rfl rfl rfl
  | moveClock now => exact (moveClock_settles w now).keeps.mono fun _ _ => trivial
  | poll | expire | requeue => cases external

/-- No task runs between occurrences. -/
theorem running_occur (hidle : w.running = none) (o : Occurrence) :
    (w.occur o).running = none := by
  by_cases hinside : ∀ i external, o ≠ .outside i external
  · cases hruns : w.runs o with
    | none => rwa [occur_eq_self hinside hruns]
    | some t => exact (occur_ran hidle hruns).idle
  · push Not at hinside
    obtain ⟨i, external, rfl⟩ := hinside
    exact (incur_keeps w external).running.trans hidle

theorem due_carryOut (t : Task) (hd : w.Due u) : (w.carryOut t).Due u := by
  cases t with
  | timer id => exact (runTimer_settles w id).keeps.due u hd
  | listener r => exact (runListener_settles w r).keeps.due u hd
  | group id place => exact hd

/-- A task that is queued stays so until it runs. -/
theorem due_occur (hidle : w.running = none) (hd : w.Due u) (hu : w.runs o ≠ some u) :
    (w.occur o).Due u := by
  by_cases hinside : ∀ i external, o ≠ .outside i external
  · cases hruns : w.runs o with
    | none => rwa [occur_eq_self hinside hruns]
    | some t =>
      have hne : u ≠ t := by
        rintro rfl
        exact hu hruns
      obtain ⟨w₁, -, -, htaken, -, hstopped⟩ := (occur_ran hidle hruns).started
      exact hstopped u hne (due_carryOut t (htaken u hne hd))
  · push Not at hinside
    obtain ⟨i, external, rfl⟩ := hinside
    exact (incur_keeps w external).due u hd

theorem Orderly.occur (h : w.Orderly c) (hidle : w.running = none) (o : Occurrence) :
    (w.occur o).Orderly c :=
  occur_induction (Q := fun w => w.Orderly c) hidle h (fun _ i _ h => h.incur i)
    fun i _ _ => h.incur i

theorem settlement?_occur {s : Settlement} (h : w.settlement? a = some s)
    (hidle : w.running = none) (o : Occurrence) : (w.occur o).settlement? a = some s :=
  occur_induction (Q := fun w => w.settlement? a = some s) hidle h
    (fun _ i _ h => settlement?_incur h i) fun i _ _ => settlement?_incur h i

/-! ## Histories -/

/-- What an occurrence keeps, a history keeps. -/
theorem occurAll_induction {Q : World → Prop} (hidle : w.running = none) (h : Q w)
    (hoccur : ∀ w, ∀ o ∈ history, w.running = none → Q w → Q (w.occur o)) :
    Q (w.occurAll history) := by
  induction history generalizing w with
  | nil => exact h
  | cons o rest ih =>
    exact ih (running_occur hidle o) (hoccur w o List.mem_cons_self hidle h)
      fun w o ho => hoccur w o (List.mem_cons_of_mem _ ho)

theorem running_occurAll (hidle : w.running = none) (history : List Occurrence) :
    (w.occurAll history).running = none :=
  occurAll_induction (Q := fun w => w.running = none) hidle hidle fun _ o _ _ h =>
    running_occur h o

theorem Orderly.occurAll (h : w.Orderly c) (hidle : w.running = none)
    (history : List Occurrence) : (w.occurAll history).Orderly c :=
  occurAll_induction (Q := fun w => w.Orderly c) hidle h fun _ o _ hidle h => h.occur hidle o

/-- What has settled stays settled. -/
theorem settlement?_occurAll {s : Settlement} (h : w.settlement? a = some s)
    (hidle : w.running = none) (history : List Occurrence) :
    (w.occurAll history).settlement? a = some s :=
  occurAll_induction (Q := fun w => w.settlement? a = some s) hidle h fun _ o _ hidle h =>
    settlement?_occur h hidle o

/-- Whatever has happened, no task is left running. -/
theorem idle_ofCapacity (c : Nat) (history : List Occurrence) :
    ((ofCapacity c).occurAll history).running = none :=
  running_occurAll rfl history

theorem orderly_occurAll (c : Nat) (history : List Occurrence) :
    ((ofCapacity c).occurAll history).Orderly c :=
  (orderly_ofCapacity c).occurAll rfl history

end World

end Rundown
