import Mathlib.Data.Fintype.Defs
import Rundown.Proofs.Engine.Opening

/-!
# Two performances side by side

Two engines perform plans that differ in the order of branches.  Within one instant tasks run in
different orders, but if the signals of the instant reach those who listen at its start, and nobody
who begins to listen meanwhile misses one (`World.Calm`), both engines are alike when the instant is
over: the same leaves have begun with the same inputs and have settled with the same outcomes
(`Engine.Acts.alike_of_alike`).  The next instant is the same for both, too.
-/

namespace Rundown

namespace World

/-- No signal has been sent that somebody still awaits. -/
def CaughtUp (w : World) : Prop :=
  ∀ a v name, (a, v) ∈ w.begun → w.effects (a, v) = [.listen name] → w.settlement? a = none →
    ∀ s, w.Sent a s → s.name ≠ name

/-- The name of the signals that what begins so awaits. -/
def awaits? (w : World) (b : ActionId × Json) : Option String :=
  match w.effects b with
  | [.listen name] => some name
  | _ => none

/-- The signals that are sent with the begin. -/
def sends (w : World) (b : ActionId × Json) : List Signal :=
  (w.effects b).filterMap fun
    | .emit s => some s
    | _ => none

/-- Between the two moments the order in which actions began does not matter: nobody began to await
a signal that was sent meanwhile, and whoever had been waiting got signals that say the same. -/
@[mk_iff]
structure Calm (w w' : World) : Prop where
  awaited : ∀ b ∈ w'.begun, b ∉ w.begun → ∀ c ∈ w'.begun, c ∉ w.begun →
    ∀ s ∈ w'.sends c, w'.awaits? b ≠ some s.name
  agreed : ∀ b ∈ w.begun, w.settlement? b.1 = none → ∀ c ∈ w'.begun, c ∉ w.begun →
    ∀ c' ∈ w'.begun, c' ∉ w.begun → ∀ s ∈ w'.sends c, ∀ s' ∈ w'.sends c',
      w'.awaits? b = some s.name → s'.name = s.name → s' = s

instance (w w' : World) : Decidable (w.Calm w') :=
  @decidable_of_iff _ _ (calm_iff w w').symm (@instDecidableAnd _ _ inferInstance inferInstance)

/-- The same has become of actions that are counterparts of one another. -/
structure Alike (r : ActionId → ActionId → Prop) (since since' : ActionId → Nat) (w w' : World) :
    Prop where
  clock : w'.clock = w.clock
  begun : ∀ a a' v, r a a' → ((a, v) ∈ w.begun ↔ (a', v) ∈ w'.begun)
  settled : ∀ a a', r a a' → w'.settlement? a' = w.settlement? a
  since : ∀ a a' v, r a a' → (a, v) ∈ w.begun → since' a' = since a

variable {r : ActionId → ActionId → Prop} {since since' : ActionId → Nat} {w w' : World}
  {due : Task → Prop}

theorem Alike.symm (h : Alike r since since' w w') :
    Alike (fun a' a => r a a') since' since w' w where
  clock := h.clock.symm
  begun a' a v hr := (h.begun a a' v hr).symm
  settled a' a hr := (h.settled a a' hr).symm
  since a' a v hr hb := (h.since a a' v hr ((h.begun a a' v hr).2 hb)).symm

theorem awaits?_of_effects {b : ActionId × Json} {name : String}
    (h : w.effects b = [.listen name]) :
    w.awaits? b = some name := by
  rw [awaits?, h]

theorem mem_sends {b : ActionId × Json} {s : Signal} : s ∈ w.sends b ↔ .emit s ∈ w.effects b := by
  rw [sends, List.mem_filterMap]
  constructor
  · rintro ⟨effect, he, hs⟩
    cases effect with
    | emit s' =>
      cases hs
      exact he
    | settle | completeAfter | listen | park => cases hs
  · exact fun h => ⟨_, h, rfl⟩

theorem Tended.caughtUp (h : w.Tended since due) (hrest : ∀ u, ¬due u) : w.CaughtUp :=
  fun _ _ _ hb he hnone _ hs => h.listens_rest hrest hb he hnone hs

/-- What awaits a signal has been sent none of that name before, so one was sent meanwhile. -/
theorem CaughtUp.fresh (h : w.CaughtUp) (hactions : w'.actions = w.actions)
    (hearlier : w.begun <+: w'.begun) (hlogged : w'.Logged) {a : ActionId} {v : Json}
    {name : String} (hb : (a, v) ∈ w'.begun) (he : w'.effects (a, v) = [.listen name])
    (hnone : w.settlement? a = none) {s : Signal} (hs : w'.Sent a s) (hname : s.name = name) :
    ∃ c, w'.After a c ∧ .emit s ∈ w'.effects c ∧ c ∉ w.begun := by
  obtain ⟨c, hafter, hemit⟩ := hs
  refine ⟨c, hafter, hemit, fun hc => ?_⟩
  -- Both begins are in the older log, in the same order.
  obtain ⟨i, j, u, hij, hi, hj⟩ := hafter
  obtain ⟨k, hk⟩ := List.mem_iff_getElem?.1 hc
  obtain ⟨more, hmore⟩ := hearlier
  have hlt : k < w.begun.length := (List.getElem?_eq_some_iff.1 hk).1
  have hk' : w'.begun[k]? = some c := by
    rw [← hmore, List.getElem?_append_left hlt, hk]
  have hjk : j = k := by
    refine (List.getElem?_inj (List.getElem?_eq_some_iff.1 hj).1
      (.of_map Prod.fst hlogged.once)).1 ?_
    rw [hj, hk']
  subst hjk
  have hi' : w.begun[i]? = some (a, u) := by
    rw [← hmore, List.getElem?_append_left (Nat.lt_trans hij hlt)] at hi
    exact hi
  have hmem := List.mem_of_getElem? hi'
  have hsame : u = v := hlogged.input_unique (List.mem_of_getElem? hi) hb
  subst hsame
  exact h a u name hmem (effects_congr hactions _ ▸ he) hnone s
    ⟨c, ⟨i, j, u, hij, hi', hk⟩, effects_congr hactions c ▸ hemit⟩ hname

/-- What begins later comes after what has begun already. -/
theorem after_of_prefix (hearlier : w.begun <+: w'.begun) {a : ActionId} {v : Json}
    (ha : (a, v) ∈ w.begun) {c : ActionId × Json} (hc : c ∈ w'.begun) (hnew : c ∉ w.begun) :
    w'.After a c := by
  obtain ⟨more, hmore⟩ := hearlier
  obtain ⟨i, hi⟩ := List.mem_iff_getElem?.1 ha
  obtain ⟨j, hj⟩ := List.mem_iff_getElem?.1 hc
  have hlt : i < w.begun.length := (List.getElem?_eq_some_iff.1 hi).1
  refine ⟨i, j, v, ?_, ?_, hj⟩
  · by_contra hle
    rw [← hmore, List.getElem?_append_left (by omega)] at hj
    exact hnew (List.mem_of_getElem? hj)
  · rw [← hmore, List.getElem?_append_left hlt, hi]

/-- Being calm carries over to another world in which the same has happened meanwhile. -/
theorem Calm.of_alike {u u' : World} (h : Calm w w') (hstart : Alike r since since' w u)
    (hearlier : u.begun <+: u'.begun)
    (hbegun : ∀ c' ∈ u'.begun, ∃ c ∈ w'.begun, r c.1 c'.1 ∧ c.2 = c'.2 ∧
      u'.effects c' = w'.effects c) : Calm u u' := by
  have hnew {c c' : ActionId × Json} (hr : r c.1 c'.1) (hv : c.2 = c'.2) :
      c ∈ w.begun ↔ c' ∈ u.begun := by
    obtain ⟨a, v⟩ := c
    obtain ⟨a', v'⟩ := c'
    obtain rfl : v = v' := hv
    exact hstart.begun a a' v hr
  have hsends {c c' : ActionId × Json} (he : u'.effects c' = w'.effects c) :
      u'.sends c' = w'.sends c := by
    rw [sends, he, sends]
  have hawaits {b b' : ActionId × Json} (he : u'.effects b' = w'.effects b) :
      u'.awaits? b' = w'.awaits? b := by
    rw [awaits?, he, awaits?]
  constructor
  · intro b' hb' hbnew c' hc' hcnew s hs
    obtain ⟨b, hb, hr, hv, he⟩ := hbegun b' hb'
    obtain ⟨c, hc, hr', hv', he'⟩ := hbegun c' hc'
    rw [hawaits he]
    exact h.awaited b hb (fun hn => hbnew ((hnew hr hv).1 hn)) c hc
      (fun hn => hcnew ((hnew hr' hv').1 hn)) s (hsends he' ▸ hs)
  · intro b' hb' hnone c₁' hc₁' hnew₁ c₂' hc₂' hnew₂ s₁ hs₁ s₂ hs₂
    obtain ⟨b, hb, hr, hv, he⟩ := hbegun b' (hearlier.subset hb')
    obtain ⟨c₁, hc₁, hr₁, hv₁, he₁⟩ := hbegun c₁' hc₁'
    obtain ⟨c₂, hc₂, hr₂, hv₂, he₂⟩ := hbegun c₂' hc₂'
    rw [hstart.settled _ _ hr] at hnone
    rw [hawaits he]
    exact h.agreed b ((hnew hr hv).2 hb') hnone
      c₁ hc₁ (fun hn => hnew₁ ((hnew hr₁ hv₁).1 hn)) c₂ hc₂ (fun hn => hnew₂ ((hnew hr₂ hv₂).1 hn))
      s₁ (hsends he₁ ▸ hs₁) s₂ (hsends he₂ ▸ hs₂)

end World

namespace Engine

/-- The engine performs the descriptor and is left to itself. -/
structure Acts (c : Compiler) (d : Descriptor) (input : Json) (since : ActionId → Nat)
    (e : Engine) : Prop where
  tended : Tended since e
  performs : ∃ root, Performs c d input e root

/-- Two descriptors whose plans differ in the order of branches, and the actions that two engines
have built for them. -/
structure Paired (r : ActionId → ActionId → Prop) (d d' : Descriptor) (e e' : Engine) : Prop where
  plans : (d.rootPlan 0).Matches r (d'.rootPlan 0)
  nodup : (d.rootPlan 0).leaves.Nodup
  nodup' : (d'.rootPlan 0).leaves.Nodup
  right_unique : ∀ a a' b', r a a' → r a b' → a' = b'
  left_unique : ∀ a b a', r a a' → r b a' → a = b
  effects : ∀ a a' v, r a a' → e'.world.effects (a', v) = e.world.effects (a, v)

variable {c c' : Compiler} {d d' : Descriptor} {input : Json} {since since' : ActionId → Nat}
  {e e' f f' : Engine} {r : ActionId → ActionId → Prop} {a a' : ActionId} {v : Json}

theorem Paired.symm (h : Paired r d d' e e') : Paired (fun a' a => r a a') d' d e' e where
  plans := h.plans.symm
  nodup := h.nodup'
  nodup' := h.nodup
  right_unique a' a b hr hr' := h.left_unique a b a' hr hr'
  left_unique a' b' a hr hr' := h.right_unique a a' b' hr hr'
  effects a' a v hr := (h.effects a a' v hr).symm

theorem Paired.of_actions (h : Paired r d d' e e') (hf : f.world.actions = e.world.actions)
    (hf' : f'.world.actions = e'.world.actions) : Paired r d d' f f' :=
  { h with
    effects := fun a a' v hr => by
      rw [World.effects_congr hf', World.effects_congr hf, h.effects a a' v hr] }

/-! ## Within an instant -/

/-- What running tasks keeps. -/
structure Acts.Goes (c : Compiler) (d : Descriptor) (input : Json) (since : ActionId → Nat)
    (e f : Engine) : Prop where
  acts : Acts c d input since f
  clock : f.world.clock = e.world.clock
  actions : f.world.actions = e.world.actions
  begun : e.world.begun <+: f.world.begun
  settled : ∀ a s, e.world.settlement? a = some s → f.world.settlement? a = some s

theorem Acts.next (h : Acts c d input since e) (hn : e.next? = some f) :
    Acts c d input since f := by
  obtain ⟨root, hroot⟩ := h.performs
  obtain ⟨root', hroot', -⟩ := hroot.next h.tended hn
  exact ⟨(h.tended.next hn).1, root', hroot'⟩

theorem Acts.goes (h : Acts c d input since e) (hf : Instant e f) :
    Acts.Goes c d input since e f := by
  induction hf with
  | refl => exact ⟨h, rfl, rfl, List.prefix_refl _, fun _ _ hs => hs⟩
  | tail _ hn ih =>
    have hpasses := (ih.acts.tended.next hn).2
    exact ⟨ih.acts.next hn, hpasses.clock.trans ih.clock, hpasses.actions.trans ih.actions,
      ih.begun.trans hpasses.begun, fun a s hs => hpasses.settled a s (ih.settled a s hs)⟩

/-- The leaves that have begun belong to the plan. -/
theorem Acts.leaf_of_begun (h : Acts c d input since e) {b : ActionId × Json}
    (hb : b ∈ e.world.begun) : b.1 ∈ (d.rootPlan 0).leaves := by
  obtain ⟨root, hroot⟩ := h.performs
  exact ((d.rootPlan 0).begins_sublist _ input).subset (List.mem_map_of_mem (hroot.planned hb))

/-- Every begin has its counterpart. -/
theorem Paired.partner (h : Paired r d d' e e') (he : Acts c d input since e)
    {b : ActionId × Json} (hb : b ∈ e.world.begun) : ∃ a', r b.1 a' := by
  obtain ⟨a', -, hr⟩ := h.plans.partner (he.leaf_of_begun hb)
  exact ⟨a', hr⟩

section

variable (he : Acts c d input since e) (he' : Acts c' d' input since' e')
  (halike : e.world.Alike r since since' e'.world)

include he he' halike

/-- Counterparts that begin within the instant begin at the same time. -/
theorem since_eq (hf : Instant e f) (hf' : Instant e' f') (hr : r a a')
    (hb : (a, v) ∈ f.world.begun) (hb' : (a', v) ∈ f'.world.begun) : since' a' = since a := by
  have hgoes := he.goes hf
  have hgoes' := he'.goes hf'
  by_cases hold : (a, v) ∈ e.world.begun
  · exact halike.since a a' v hr hold
  · have hnew {g g' : Engine} {a : ActionId} {c : Compiler} {d : Descriptor}
        {since : ActionId → Nat} (hg : Acts c d input since g) (hgoes : Acts.Goes c d input since g g')
        (hb : (a, v) ∈ g'.world.begun) (hold : (a, v) ∉ g.world.begun) :
        since a = g.world.clock := by
      refine hg.tended.world.newcomers a fun hs => ?_
      obtain ⟨u, hu⟩ := hg.tended.world.listed a hs
      obtain rfl := hgoes.acts.tended.world.logged.input_unique (hgoes.begun.subset hu) hb
      exact hold hu
    rw [hnew he hgoes hb hold,
      hnew he' hgoes' hb' fun hn => hold ((halike.begun a a' v hr).2 hn), halike.clock]

variable (hpaired : Paired r d d' e e') (hcaught : e.world.CaughtUp)
  (hcaught' : e'.world.CaughtUp) (hf' : Instant e' f') (hquiet' : f'.Quiescent)
  (hcalm : e'.world.Calm f'.world)

include hpaired hcaught hcaught' hf' hquiet' hcalm

/-- Everything that has happened in `f` has happened in `f'`. -/
structure Within (r : ActionId → ActionId → Prop) (f f' : Engine) : Prop where
  begun : ∀ a a' v, r a a' → (a, v) ∈ f.world.begun → (a', v) ∈ f'.world.begun
  settled : ∀ a a' s, r a a' → f.world.settlement? a = some s → f'.world.settlement? a' = some s

/-- A signal that an action hears is heard by its counterpart before the instant is over. -/
theorem heard_within {g : Engine} (hg : Instant e g) (ih : Within r g f') {name : String}
    (hr : r a a') (hb : (a, v) ∈ g.world.begun) (hb' : (a', v) ∈ f'.world.begun)
    (heff' : f'.world.effects (a', v) = [.listen name]) (hnone : g.world.settlement? a = none)
    {s : Signal} (hs : g.world.Sent a s) (hname : s.name = name) :
    f'.world.settlement? a' = some (World.settlementOf s) := by
  have hgoes := he.goes hg
  have hgoes' := he'.goes hf'
  have hpairedg := hpaired.of_actions hgoes.actions hgoes'.actions
  have heff : g.world.effects (a, v) = [.listen name] :=
    (hpairedg.effects a a' v hr).symm.trans heff'
  have hnonee : e.world.settlement? a = none := by
    cases hs : e.world.settlement? a with
    | none => rfl
    | some o =>
      rw [hgoes.settled a o hs] at hnone
      cases hnone
  have hnonee' : e'.world.settlement? a' = none := (halike.settled a a' hr).trans hnonee
  have hlogged' := hgoes'.acts.tended.world.logged
  -- The signal was sent within the instant, so its counterpart was, too.
  obtain ⟨⟨x, u⟩, hafter, hemit, hnew⟩ := hcaught.fresh hgoes.actions hgoes.begun
    hgoes.acts.tended.world.logged hb heff hnonee hs hname
  obtain ⟨x', hrx⟩ := hpairedg.partner hgoes.acts hafter.mem_right
  have hx' := ih.begun x x' u hrx hafter.mem_right
  have hnew' : (x', u) ∉ e'.world.begun := fun hn => hnew ((halike.begun x x' u hrx).2 hn)
  have hemit' : .emit s ∈ f'.world.effects (x', u) := by
    rw [hpairedg.effects x x' u hrx]
    exact hemit
  have hearly : (a', v) ∈ e'.world.begun := by
    by_contra hlate
    refine hcalm.awaited _ hb' hlate _ hx' hnew' s (World.mem_sends.2 hemit') ?_
    rw [World.awaits?_of_effects heff', hname]
  have hsent' : f'.world.Sent a' s :=
    ⟨_, World.after_of_prefix hgoes'.begun hearly hx' hnew', hemit'⟩
  cases hs' : f'.world.settlement? a' with
  | none =>
    exact absurd hname (hgoes'.acts.tended.world.listens_rest
      (hgoes'.acts.tended.not_due hquiet') hb' heff' hs' hsent')
  | some o =>
    obtain ⟨s', hsent, hname', rfl⟩ := hgoes'.acts.tended.world.listens_settled hb' heff' hs'
    obtain ⟨y', hafter', hemity, hnewy⟩ := hcaught'.fresh hgoes'.actions hgoes'.begun hlogged' hb'
      heff' hnonee' hsent hname'
    rw [hcalm.agreed _ hearly hnonee' _ hx' hnew' y' hafter'.mem_right hnewy s
      (World.mem_sends.2 hemit') s' (World.mem_sends.2 hemity)
      (by rw [World.awaits?_of_effects heff', hname]) (hname'.trans hname.symm)]

/-- A leaf that settles in a step that follows settles in `f'` as well, once it has begun there. -/
theorem settles_within {g h : Engine} (hg : Instant e g) (hh : g.next? = some h)
    (ih : Within r g f') (hr : r a a') (hb : (a, v) ∈ h.world.begun)
    (hb' : (a', v) ∈ f'.world.begun) {s : Settlement} (hs : h.world.settlement? a = some s) :
    f'.world.settlement? a' = some s := by
  have hgoes := he.goes (hg.tail hh)
  have hgoes' := he'.goes hf'
  have htended := hgoes.acts.tended
  have htended' := hgoes'.acts.tended
  have heffects := (hpaired.of_actions hgoes.actions hgoes'.actions).effects a a' v hr
  have hplain := htended.world.plain_of_begun hb
  generalize heff : h.world.effects (a, v) = effects at hplain heffects
  cases hplain with
  | wait delay value =>
    obtain ⟨rfl, hle⟩ := htended.world.waits_settled hb heff hs
    have hrest := htended'.not_due hquiet'
    cases hs' : f'.world.settlement? a' with
    | none =>
      have hlt := htended'.world.waits_rest hrest hb' heffects hs'
      rw [since_eq he he' halike (hg.tail hh) hf' hr hb hb', hgoes'.clock, halike.clock,
        ← hgoes.clock] at hlt
      omega
    | some o => rw [(htended'.world.waits_settled hb' heffects hs').1]
  | settle o =>
    have ho := (htended.world.honours _ hb).settles o
      (by rw [heff]; exact List.mem_singleton_self _)
    have ho' := (htended'.world.honours _ hb').settles o
      (by rw [heffects]; exact List.mem_singleton_self _)
    rw [ho] at hs
    rw [ho', hs]
  | emit signal o =>
    have ho := (htended.world.honours _ hb).settles o (by rw [heff]; simp)
    have ho' := (htended'.world.honours _ hb').settles o (by rw [heffects]; simp)
    rw [ho] at hs
    rw [ho', hs]
  | listen name =>
    cases hsg : g.world.settlement? a with
    | some o =>
      have := ((he.goes hg).acts.tended.next hh).2.settled a o hsg
      rw [hs] at this
      rw [ih.settled a a' o hr hsg, this]
    | none =>
      obtain ⟨signal, hsent, hname, rfl⟩ :=
        ((he.goes hg).acts.tended.next hh).2.heard a v name s hb heff hsg hs
      obtain ⟨c, hafter, -⟩ := id hsent
      obtain ⟨u, hu⟩ := hafter.mem_left
      obtain rfl : u = v := htended.world.logged.input_unique
        (((he.goes hg).acts.tended.next hh).2.begun.subset hu) hb
      exact heard_within he he' halike hpaired hcaught hcaught' hf' hquiet' hcalm hg ih hr hu hb'
        heffects hsg hsent hname

/-- Nothing happens in the instant that does not happen in `f'`. -/
theorem instant_within (hf : Instant e f) : Within r f f' := by
  have hgoes' := he'.goes hf'
  induction hf with
  | refl =>
    exact ⟨fun a a' v hr hb => hgoes'.begun.subset ((halike.begun a a' v hr).1 hb),
      fun a a' s hr hs => hgoes'.settled a' s ((halike.settled a a' hr).trans hs)⟩
  | @tail g h hg hh ih =>
    have hgoes := he.goes (hg.tail hh)
    have hlogged := hgoes.acts.tended.world.logged
    have hsettles {a a' : ActionId} {v : Json} {s : Settlement} (hr : r a a')
        (hv : (a, v) ∈ h.world.begun) (hv' : (a', v) ∈ f'.world.begun)
        (hs : h.world.settlement? a = some s) : f'.world.settlement? a' = some s :=
      settles_within he he' halike hpaired hcaught hcaught' hf' hquiet' hcalm hg hh ih hr hv hv' hs
    obtain ⟨root, hroot⟩ := hgoes.acts.performs
    obtain ⟨root', hroot'⟩ := hgoes'.acts.performs
    have hcarries : Plan.Carried r h.world.settlement? f'.world.settlement? (d.rootPlan 0)
        (d'.rootPlan 0) input := hpaired.plans.carries fun a a' u s hr hb hb' hs => by
      obtain ⟨w, hw⟩ := hgoes.acts.tended.world.begun_of_settled hs
      obtain rfl := Plan.begins_unique hpaired.nodup (hroot.planned hw) hb
      exact hsettles hr hw ((hroot'.mem_begun_iff hquiet').2 hb') hs
    have hbegun : ∀ a a' v, r a a' → (a, v) ∈ h.world.begun → (a', v) ∈ f'.world.begun := by
      intro a a' v hr hb
      obtain ⟨b', hrb, hb'⟩ := hcarries.begins a v (hroot.planned hb)
      obtain rfl := hpaired.right_unique a a' b' hr hrb
      exact (hroot'.mem_begun_iff hquiet').2 hb'
    refine ⟨hbegun, fun a a' s hr hs => ?_⟩
    obtain ⟨v, hv⟩ := hgoes.acts.tended.world.begun_of_settled hs
    exact hsettles hr hv (hbegun a a' v hr hv) hs

end

/-! ## From one instant to the next -/

/-- Two performances at the start of an instant at which they are alike. -/
structure Synced (r : ActionId → ActionId → Prop) (c : Compiler) (d d' : Descriptor) (input : Json)
    (since since' : ActionId → Nat) (e e' : Engine) : Prop where
  acts : Acts c d input since e
  acts' : Acts c d' input since' e'
  paired : Paired r d d' e e'
  alike : e.world.Alike r since since' e'.world
  caught : e.world.CaughtUp
  caught' : e'.world.CaughtUp

section

variable (h : Synced r c d d' input since since' e e') (hf : Instant e f) (hf' : Instant e' f')
  (hquiet : f.Quiescent) (hquiet' : f'.Quiescent) (hcalm : e.world.Calm f.world)

include h hf hf' hquiet hquiet' hcalm

/-- When the instant is over, both are alike again. -/
theorem Synced.alike_at_rest : f.world.Alike r since since' f'.world := by
  have hgoes := h.acts.goes hf
  have hgoes' := h.acts'.goes hf'
  have hpaired := h.paired.of_actions hgoes.actions hgoes'.actions
  have hback := instant_within h.acts' h.acts h.alike.symm h.paired.symm h.caught' h.caught hf hquiet
    hcalm hf'
  have hcalm' : e'.world.Calm f'.world := by
    refine hcalm.of_alike h.alike hgoes'.begun fun b' hb' => ?_
    obtain ⟨a', v⟩ := b'
    obtain ⟨a, hr⟩ := hpaired.symm.partner hgoes'.acts hb'
    exact ⟨(a, v), hback.begun a' a v hr hb', hr, rfl, hpaired.effects a a' v hr⟩
  have hforth := instant_within h.acts h.acts' h.alike h.paired h.caught h.caught' hf' hquiet'
    hcalm' hf
  refine ⟨?_, fun a a' v hr => ⟨hforth.begun a a' v hr, hback.begun a' a v hr⟩, fun a a' hr => ?_,
    fun a a' v hr hb => ?_⟩
  · rw [hgoes'.clock, hgoes.clock, h.alike.clock]
  · exact Option.ext fun s => ⟨hback.settled a' a s hr, hforth.settled a a' s hr⟩
  · exact since_eq h.acts h.acts' h.alike hf hf' hr hb (hforth.begun a a' v hr hb)

/-- Both go on at the same time. -/
theorem Synced.nextDeadline_eq : f'.world.nextDeadline = f.world.nextDeadline := by
  have halike := h.alike_at_rest hf hf' hquiet hquiet' hcalm
  have hgoes := h.acts.goes hf
  have hgoes' := h.acts'.goes hf'
  have hpaired := h.paired.of_actions hgoes.actions hgoes'.actions
  have hsame (now : Nat) : now ∈ f'.world.timers.filterMap Timer.deadline ↔
      now ∈ f.world.timers.filterMap Timer.deadline := by
    rw [hgoes.acts.tended.world.mem_deadlines_iff (hgoes.acts.tended.not_due hquiet),
      hgoes'.acts.tended.world.mem_deadlines_iff (hgoes'.acts.tended.not_due hquiet')]
    constructor
    · rintro ⟨a', v, delay, value, hb', he', hnone', rfl⟩
      obtain ⟨a, hr⟩ := hpaired.symm.partner hgoes'.acts hb'
      have hb := (halike.begun a a' v hr).2 hb'
      exact ⟨a, v, delay, value, hb, (hpaired.effects a a' v hr).symm.trans he',
        (halike.settled a a' hr).symm.trans hnone', by rw [halike.since a a' v hr hb]⟩
    · rintro ⟨a, v, delay, value, hb, he, hnone, rfl⟩
      obtain ⟨a', hr⟩ := hpaired.partner hgoes.acts hb
      exact ⟨a', v, delay, value, (halike.begun a a' v hr).1 hb,
        (hpaired.effects a a' v hr).trans he, (halike.settled a a' hr).trans hnone,
        by rw [halike.since a a' v hr hb]⟩
  unfold World.nextDeadline
  refine Option.ext fun now => ?_
  simp only [List.min?_eq_some_iff, hsame]

/-- At the next deadline both are alike at the start of an instant. -/
theorem Synced.moveClock {now : Nat} (hnow : f.world.clock ≤ now) :
    Synced r c d d' input (fun a => if f.world.started? a = some true then since a else now)
      (fun a => if f'.world.started? a = some true then since' a else now)
      { f with world := f.world.moveClock now } { f' with world := f'.world.moveClock now } := by
  have halike := h.alike_at_rest hf hf' hquiet hquiet' hcalm
  have hgoes := h.acts.goes hf
  have hgoes' := h.acts'.goes hf'
  have hmoved (w : World) : World.Requeued { w with clock := now } (w.moveClock now) :=
    .enqueueAll _ _
  have hcaught {w : World} (hw : w.CaughtUp) : (w.moveClock now).CaughtUp := by
    obtain ⟨_, _, _, _, heq⟩ := hmoved w
    rw [heq]
    exact hw
  have hacts {c : Compiler} {d : Descriptor} {since : ActionId → Nat} {f : Engine}
      (hf : Acts c d input since f) (hquiet : f.Quiescent) (hnow : f.world.clock ≤ now) :
      Acts c d input (fun a => if f.world.started? a = some true then since a else now)
        { f with world := f.world.moveClock now } := by
    obtain ⟨root, hroot⟩ := hf.performs
    exact ⟨hf.tended.moveClock hquiet hnow, root, hroot.moveClock now⟩
  refine ⟨hacts hgoes.acts hquiet hnow, hacts hgoes'.acts hquiet' (halike.clock ▸ hnow),
    (h.paired.of_actions hgoes.actions hgoes'.actions).of_actions (hmoved f.world).actions
      (hmoved f'.world).actions, ?_,
    hcaught (hgoes.acts.tended.world.caughtUp (hgoes.acts.tended.not_due hquiet)),
    hcaught (hgoes'.acts.tended.world.caughtUp (hgoes'.acts.tended.not_due hquiet'))⟩
  obtain ⟨_, _, _, _, heq⟩ := hmoved f.world
  obtain ⟨_, _, _, _, heq'⟩ := hmoved f'.world
  rw [heq, heq']
  refine ⟨rfl, halike.begun, halike.settled, fun a a' v hr hb => ?_⟩
  have hs := hgoes.acts.tended.world.logged.started _ hb
  have hs' := hgoes'.acts.tended.world.logged.started _ ((halike.begun a a' v hr).1 hb)
  simp only [if_pos hs, if_pos hs']
  exact halike.since a a' v hr hb

end

end Engine

end Rundown
