import Rundown.Proofs.Engine.Turn
import Rundown.Proofs.Playlist.Seats

/-!
# The leaves of all playlists

`Engine.seats` lists the leaves of all playlists of an engine.  An event moves them
(`Seat.Moves`), or it adds a playlist none of whose leaves has been launched
(`Engine.Sound.apply_reseats`).
-/

namespace Rundown

/-- Actions that are added have not begun. -/
theorem World.BeginsNothing.of_added {w w' : World} {added : List Instance}
    (hadded : ∀ i ∈ added, i.started = false) (hi : w'.instances = w.instances ++ added)
    (hb : w'.begun = w.begun) (hr : w'.running = w.running) (hd : ∀ t, w.Due t → w'.Due t) :
    w.BeginsNothing w' := by
  have hkeeps := World.Keeps.of_added hi hb hr hd
  refine ⟨hb, fun a b hs => ?_, fun a hs => started?_of_added hi hadded hs, hkeeps.settled⟩
  have hsome : ¬w.started? a = none := by
    rw [hs]
    exact Option.some_ne_none b
  exact (hkeeps.same a hsome).1.trans hs

namespace Engine

open Step Seat

/-- The step of a playlist that is reached by the given indices. -/
def at? (e : Engine) (id : PlaylistId) (place : List Nat) : Option Step :=
  e.playlists[id]?.bind fun p => p.root.at? place

/-- The leaves of playlists, which are numbered from the given number on. -/
def seatsFrom : PlaylistId → List Playlist → List Seat
  | _, [] => []
  | id, p :: rest => p.root.seats id [] ++ seatsFrom (id + 1) rest

/-- The leaves of all playlists. -/
def seats (e : Engine) : List Seat := seatsFrom 0 e.playlists

variable {lead : ActionId → Prop} {e e' : Engine} {id first : PlaylistId} {p : Playlist}
  {playlists : List Playlist} {seat : Seat}

theorem mem_seatsFrom : seat ∈ seatsFrom first playlists ↔ ∃ i p, playlists[i]? = some p ∧
    seat.playlist = first + i ∧
      p.root.at? seat.place = some (.leaf seat.slot seat.action) := by
  induction playlists generalizing first with
  | nil => simp [seatsFrom]
  | cons p rest ih =>
    rw [seatsFrom, List.mem_append, mem_seats, ih]
    constructor
    · rintro (⟨hid, below, hplace, hat⟩ | ⟨i, q, hi, hid, hat⟩)
      · rw [List.nil_append] at hplace
        exact ⟨0, p, rfl, hid, hplace ▸ hat⟩
      · exact ⟨i + 1, q, hi, by rw [hid, Nat.add_right_comm, Nat.add_assoc], hat⟩
    · rintro ⟨i, q, hi, hid, hat⟩
      cases i with
      | zero =>
        cases hi
        exact .inl ⟨hid, seat.place, rfl, hat⟩
      | succ i => exact .inr ⟨i, q, hi, by rw [hid, Nat.add_right_comm, Nat.add_assoc], hat⟩

/-- The seats are the leaves that are reached by some place. -/
theorem mem_seats_iff : seat ∈ e.seats ↔
    e.at? seat.playlist seat.place = some (.leaf seat.slot seat.action) := by
  rw [seats, mem_seatsFrom, at?, Option.bind_eq_some_iff]
  simp only [Nat.zero_add]
  constructor
  · rintro ⟨i, p, hi, hid, hat⟩
    exact ⟨p, hid ▸ hi, hat⟩
  · rintro ⟨p, hi, hat⟩
    exact ⟨_, p, hi, rfl, hat⟩

theorem nodup_seatsFrom (first : PlaylistId) (playlists : List Playlist) :
    ((seatsFrom first playlists).map Seat.key).Nodup := by
  induction playlists generalizing first with
  | nil => exact List.nodup_nil
  | cons p rest ih =>
    rw [seatsFrom, List.map_append, List.nodup_append]
    refine ⟨nodup_seats first [] p.root, ih (first + 1), ?_⟩
    rintro key hkey _ hkey' rfl
    obtain ⟨seat, hm, rfl⟩ := List.mem_map.1 hkey
    obtain ⟨seat', hm', heq⟩ := List.mem_map.1 hkey'
    obtain ⟨hid, -⟩ := mem_seats.1 hm
    obtain ⟨i, -, -, hid', -⟩ := mem_seatsFrom.1 hm'
    have hsame : seat'.playlist = seat.playlist := congrArg Prod.fst heq
    have hlt : first < first + 1 + i :=
      Nat.lt_of_lt_of_le (Nat.lt_succ_self first) (Nat.le_add_right _ _)
    exact absurd (hid.symm.trans (hsame.symm.trans hid')) (Nat.ne_of_lt hlt)

/-- No place is listed twice. -/
theorem nodup_seats (e : Engine) : (e.seats.map Seat.key).Nodup := nodup_seatsFrom 0 e.playlists

theorem seatsFrom_append (first : PlaylistId) (playlists added : List Playlist) :
    seatsFrom first (playlists ++ added) =
      seatsFrom first playlists ++ seatsFrom (first + playlists.length) added := by
  induction playlists generalizing first with
  | nil => rfl
  | cons p rest ih =>
    rw [List.cons_append, seatsFrom, seatsFrom, ih, List.append_assoc, List.length_cons,
      Nat.add_right_comm, Nat.add_assoc]

/-- One playlist and the others around it. -/
theorem exists_seatsFrom_modify (first : PlaylistId) (hp : playlists[id]? = some p) :
    ∃ front back, seatsFrom first playlists = front ++ p.root.seats (first + id) [] ++ back ∧
      ∀ f : Playlist → Playlist, seatsFrom first (playlists.modify id f) =
        front ++ (f p).root.seats (first + id) [] ++ back := by
  induction playlists generalizing first id with
  | nil => cases hp
  | cons q rest ih =>
    cases id with
    | zero =>
      cases hp
      exact ⟨[], seatsFrom (first + 1) rest, rfl, fun f => rfl⟩
    | succ id =>
      obtain ⟨front, back, heq, hmodify⟩ := ih (first + 1) hp
      rw [Nat.add_right_comm, Nat.add_assoc] at heq hmodify
      refine ⟨q.root.seats first [] ++ front, back, ?_, fun f => ?_⟩
      · simp only [seatsFrom, heq, List.append_assoc]
      · simp only [List.modify_succ_cons, seatsFrom, hmodify, List.append_assoc]

/-- What happens to the leaves of one playlist happens among all. -/
theorem moves_modify {w : World} {f : Playlist → Playlist} (hp : e.playlists[id]? = some p)
    (h : Moves (p.root.seats id [], e.world) ((f p).root.seats id [], w)) :
    Moves (e.seats, e.world) ((⟨w, e.playlists.modify id f⟩ : Engine).seats, w) := by
  obtain ⟨front, back, heq, hmodify⟩ := exists_seatsFrom_modify 0 hp
  rw [Nat.zero_add] at heq hmodify
  rw [seats, seats, heq, hmodify]
  exact h.inside front back

/-- A change of a playlist that does not concern its leaves. -/
theorem seats_modify {w : World} {f : Playlist → Playlist}
    (hf : ∀ p : Playlist, (f p).root.seats id [] = p.root.seats id []) :
    (⟨w, e.playlists.modify id f⟩ : Engine).seats = e.seats := by
  cases hp : e.playlists[id]? with
  | none => rw [List.modify_eq_self (List.getElem?_eq_none_iff.1 hp)]; rfl
  | some p =>
    obtain ⟨front, back, heq, hmodify⟩ := exists_seatsFrom_modify 0 hp
    rw [Nat.zero_add] at heq hmodify
    rw [seats, seats, heq, hmodify, hf]

theorem seats_withStage (p : Playlist) (stage : Stage) :
    (p.withStage stage).root.seats id [] = p.root.seats id [] := by
  obtain ⟨descriptor, root, handles⟩ := p
  cases root <;> rfl

theorem seatsFrom_wakeFrom (a : ActionId) (first : PlaylistId) (playlists : List Playlist)
    (w : World) : seatsFrom first (wakeFrom a first playlists w).1 = seatsFrom first playlists := by
  induction playlists generalizing first w with
  | nil => rfl
  | cons p rest ih =>
    unfold wakeFrom
    dsimp only
    rw [seatsFrom, seatsFrom, ih, wake_seats]

theorem seats_withSettled (e : Engine) (result : World × Option ActionId) :
    (e.withSettled result).seats = e.seats := by
  obtain ⟨w, answer⟩ := result
  cases answer with
  | none => rfl
  | some a => exact seatsFrom_wakeFrom a 0 e.playlists w

/-! ## Events -/

/-- The seats of `e` have become those of `e'`: they have moved, or leaves were added that have not
been launched, and whose actions exist. -/
def Reseats (e e' : Engine) : Prop :=
  Moves (e.seats, e.world) (e'.seats, e'.world) ∨
    (e.world.BeginsNothing e'.world ∧ ∃ added, e'.seats = e.seats ++ added ∧
      ∀ seat ∈ added, seat.slot = .idle ∧ e'.world.started? seat.action ≠ none)

theorem Reseats.of_world {w : World} (h : e.world.BeginsNothing w) :
    e.Reseats { e with world := w } :=
  .inl (.of_passes h)

theorem Reseats.begun (h : e.Reseats e') : ∀ b ∈ e.world.begun, b ∈ e'.world.begun := by
  rcases h with hmoves | ⟨hw, -⟩
  · exact hmoves.begun
  · rw [hw.begun]
    exact fun _ hb => hb

theorem Reseats.refl (e : Engine) : e.Reseats e := .inl .refl

/-- A completion may have settled, and whoever awaits it has been woken. -/
theorem withSettled_beginsNothing (result : World × Option ActionId)
    (h : World.Settles result.2 e.world result.1) :
    e.world.BeginsNothing (e.withSettled result).world :=
  .of_settles (withSettled_carries result (x := e.scene fun _ => False) (fun _ => rfl) h).1

theorem moves_perform (hknown : ∀ (id : PlaylistId) (p : Playlist), e.playlists[id]? = some p →
      p.root.Arrayed) (t : Task) :
    Moves (e.seats, e.world) ((e.perform t).1.seats, (e.perform t).1.world) := by
  cases t with
  | timer n =>
    simp only [perform, seats_withSettled]
    exact .of_passes (withSettled_beginsNothing _ (e.world.runTimer_settles n))
  | listener r =>
    simp only [perform, seats_withSettled]
    exact .of_passes (withSettled_beginsNothing _ (e.world.runListener_settles r))
  | group id place =>
    simp only [perform]
    cases hp : e.playlists[id]? with
    | none => exact .refl
    | some p =>
      exact moves_modify (f := fun q =>
        { q with root := (p.root.pollPlace place (rootSite id) e.world).step }) hp
        (pollPlace_moves id [] place (rootSite id) e.world (hknown id p hp))

theorem Sound.arrayed (h : Sound lead e) (id : PlaylistId) (p : Playlist)
    (hp : e.playlists[id]? = some p) : p.root.Arrayed :=
  (h.known id p hp).2.arrayed

/-- Running a task that was taken from its queue, which left the world `w`. -/
theorem Sound.runTask_moves (h : Sound lead e) {w : World} (t : Task)
    (hi : w.instances = e.world.instances) (hb : w.begun = e.world.begun) :
    Moves (e.seats, e.world) ((({ e with world := w } : Engine).runTask t).seats,
      (({ e with world := w } : Engine).runTask t).world) := by
  let e₁ : Engine := { e with world := { w with running := some t, rewoken := false } }
  have htaken : e.world.BeginsNothing e₁.world := .of_same hi hb
  have hperform : Moves (e₁.seats, e₁.world) ((e₁.perform t).1.seats, (e₁.perform t).1.world) :=
    moves_perform (e := e₁) h.arrayed t
  obtain ⟨hinstances, hbegun, -⟩ :=
    World.stop_frame (e₁.perform t).1.world t (e₁.perform t).2
  have hstop : Moves ((e₁.perform t).1.seats, (e₁.perform t).1.world) _ :=
    .of_passes (.of_same hinstances hbegun)
  exact (Moves.of_passes htaken).trans (hperform.trans hstop)

/-- A playlist that is compiled adds its leaves. -/
theorem Sound.compile_reseats {c : Compiler} {d : Descriptor} (hknows : e.Knows d)
    (hcompile : (c.compile d e).result = .ok (e', id)) : e.Reseats e' := by
  obtain ⟨root, shop, hrooted, hid, rfl, -⟩ := compile_known hcompile
  obtain ⟨hbegun, hrunning, hdue⟩ := Compiler.addActions_frame shop.calls e.world
  have hinstances := Compiler.addActions_instances shop.calls e.world
  refine .inr ⟨.of_added (by simp) hinstances hbegun hrunning hdue, root.seats id [], ?_, ?_⟩
  · show seatsFrom 0 (e.playlists ++ [⟨d, root, 1⟩]) = e.seats ++ root.seats id []
    rw [seatsFrom_append, hid, Nat.zero_add, seatsFrom, seatsFrom, List.append_nil, seats]
  · intro seat hm
    obtain ⟨-, below, -, hat⟩ := mem_seats.1 hm
    refine ⟨hrooted.fresh.at? hat, fun hnone => ?_⟩
    have hlt := leaves_exist hrooted hknows _ (at?_leaves hat (List.mem_singleton.2 rfl))
    rw [World.started?, List.getElem?_eq_getElem hlt] at hnone
    cases hnone

theorem Sound.apply_reseats (h : Sound lead e) (event : Event) : e.Reseats (e.apply event) := by
  have unchanged {w : World} {f : Playlist → Playlist} {id : PlaylistId}
      (hf : ∀ p : Playlist, (f p).root.seats id [] = p.root.seats id [])
      (hw : e.world.BeginsNothing w) : e.Reseats ⟨w, e.playlists.modify id f⟩ := by
    left
    rw [seats_modify hf]
    exact .of_passes hw
  cases event with
  | build action =>
    have hadded : ∀ i ∈ [(⟨action, false, none, 1⟩ : Instance)], i.started = false := by simp
    exact .of_world (.of_added hadded rfl rfl rfl fun _ ht => ht)
  | compile c d =>
    rcases e.apply_compile c d with heq | ⟨e', id, hr, hknows, heq⟩ <;> rw [heq]
    · exact .refl e
    · exact Sound.compile_reseats hknows hr
  | play id input inRuntime =>
    rcases e.apply_play id input inRuntime with heq | ⟨-, p, -, -, heq⟩ <;> rw [heq]
    · exact .refl e
    · exact unchanged (fun p => seats_withStage p _) (.schedule e.world _)
  | cloneHandle id => exact unchanged (fun p => rfl) (.refl e.world)
  | dropHandle id =>
    refine unchanged (fun p => ?_) (.refl e.world)
    dsimp only
    split
    · split
      · exact seats_withStage _ _
      · rfl
    · rfl
  | pollCompletion id =>
    simp only [Engine.apply, Engine.pollCompletion]
    cases hp : e.playlists[id]? with
    | none => exact .refl e
    | some p =>
      exact .inl (moves_modify (f := fun q =>
        { q with root := (p.root.poll (rootSite id) none e.world).step }) hp
        (pollWithin_moves id [] (rootSite id) none e.world (h.arrayed id p hp) (Nat.le_refl _)))
  | settle a s =>
    left
    simp only [Engine.apply, settleAction, seats_withSettled]
    exact .of_passes (withSettled_beginsNothing _ (World.settle_settles e.world a s))
  | endAction a => exact .of_world (.of_settles (e.world.endAction_settles a))
  | emit s => exact .of_world (.of_settles (e.world.emit_settles s))
  | useBus change => exact .of_world (.of_same rfl rfl)
  | releaseBus => exact .of_world (.of_settles e.world.releaseBus_settles)
  | moveClock now => exact .of_world (.of_settles (e.world.moveClock_settles now))
  | run queue index =>
    rcases e.apply_run queue index with heq | ⟨t, -, heq⟩ <;> rw [heq]
    · exact .refl e
    · exact .inl (h.runTask_moves t rfl rfl)

/-- What has begun stays begun, with the same input. -/
theorem Sound.after_begun (h : Sound lead e) (history : List Event) :
    ∀ b ∈ e.world.begun, b ∈ (e.after history).world.begun := by
  induction history generalizing e with
  | nil => exact fun _ hb => hb
  | cons event history ih =>
    exact fun b hb => ih (h.apply event).1 b ((h.apply_reseats event).begun b hb)

end Engine

end Rundown
