import Chronicle.Proofs.World.History
import Chronicle.Proofs.World.Irrevocable

/-!
# Latches fire once in each period

Latches are examined at the end of a write, one after another, and each that fires does so in the
period that those before it have left.  `firingLog` lists the firings of a history, each with the
period just before.  A history unfolds in calm stretches and firings (`unfolds_after`); a calm
stretch leaves the antecedents of all periods, and a firing is that of a latch which is not known to
have fired.

So the log tells all that there is to know of the antecedents (`Tallies`): a latch fires at most
once in each period, it is known to be true from then on, and its antecedent is what was known of
its closure at that moment, for the rest of the history (`latches_fire_once`).
-/

namespace Chronicle

/-- A latch fires in a period, which was this just before. -/
structure Firing where
  trigger : Variable
  before : Period

namespace Firing

def time (f : Firing) : Int := f.before.time

def key (f : Firing) : Int × String := (f.time, f.trigger.name)

def antecedent (g : Graph) (f : Firing) : Antecedent := f.before.antecedentOf g f.trigger

end Firing

namespace World

open Relation (ReflTransGen)

variable {g : Graph} {w w' w'' : World} {log l : List Firing} {ts : List Variable} {t : Variable}
  {calls : List Call}

/-- The firings while latches are examined in order.  A latch that cannot be examined ends it. -/
def firingsOf : List Variable → World → List Firing
  | [], _ => []
  | t :: rest, w =>
    match (fire t).run w with
    | (.ok true, w') => ⟨t, w.current⟩ :: firingsOf rest w'
    | (.ok false, w') => firingsOf rest w'
    | (.error _, _) => []

/-- The firings of a call.  Latches are examined when a write is settled. -/
def firings (w : World) : Call → List Firing
  | .write s b =>
    match w.graph.require s with
    | .ok v =>
      match (settle v b).run w with
      | (.ok _, w') => firingsOf (w.graph.triggersDependentOn v.name) w'
      | (.error _, _) => []
    | .error _ => []
  | _ => []

def firingLog (w : World) : List Call → List Firing
  | [] => []
  | c :: rest => w.firings c ++ (w.next c).firingLog rest

/-- The world comes from a fresh one by a history in which just these latches have fired. -/
def HasFired (g : Graph) (log : List Firing) (w : World) : Prop :=
  ∃ settings time? calls, w = (start g settings time?).after calls ∧
    log = (start g settings time?).firingLog calls

theorem map_trigger_firingsOf {fired : List Variable}
    (h : (fireAll ts).run w = (.ok fired, w')) : (firingsOf ts w).map Firing.trigger = fired := by
  induction ts generalizing w fired with
  | nil =>
    cases h
    rfl
  | cons t rest ih =>
    obtain ⟨b, w₁, hfire, h⟩ := run_bind_eq_ok.mp h
    obtain ⟨others, w₂, hrest, h⟩ := run_bind_eq_ok.mp h
    rw [firingsOf, hfire]
    cases b with
    | true =>
      cases h
      exact congrArg (t :: ·) (ih hrest)
    | false =>
      cases h
      exact ih hrest

theorem firingLog_append (w : World) (before after : List Call) :
    w.firingLog (before ++ after) = w.firingLog before ++ (w.after before).firingLog after := by
  induction before generalizing w with
  | nil => rfl
  | cons c rest ih =>
    show w.firings c ++ (w.next c).firingLog (rest ++ after) = _
    rw [ih, ← List.append_assoc]
    rfl

theorem HasFired.reachable (h : HasFired g log w) : Reachable g w := by
  obtain ⟨settings, time?, calls, hw, _⟩ := h
  exact ⟨settings, time?, calls, hw⟩

theorem HasFired.after (h : HasFired g log w) (calls : List Call) :
    HasFired g (log ++ w.firingLog calls) (w.after calls) := by
  obtain ⟨settings, time?, before, rfl, rfl⟩ := h
  refine ⟨settings, time?, before ++ calls, ?_, (firingLog_append _ before calls).symm⟩
  rw [World.after, World.after, World.after, List.foldl_append]

/-! ### A history unfolds -/

/-- The world unfolds in calm stretches and in these firings, each of a latch that is not known to
have fired. -/
inductive Unfolds (w : World) : List Firing → World → Prop
  | refl : Unfolds w [] w
  | calm {l : List Firing} {w' w'' : World} (h : Unfolds w l w') (hpath : Path w' w'')
      (hsame : ∀ time,
        (w''.timeline.period time).antecedents = (w'.timeline.period time).antecedents) :
      Unfolds w l w''
  | fired {l : List Firing} {w' : World} (h : Unfolds w l w') (t : Variable)
      (ht : t ∈ w'.graph.declared) (hk : t.isTriggered = true)
      (hp : w'.current.peek t.name ≠ some true) :
      Unfolds w (l ++ [⟨t, w'.current⟩]) (w'.setPeriod (w'.current.fired w'.graph t))

theorem Unfolds.trans (h : Unfolds w log w') (h' : Unfolds w' l w'') :
    Unfolds w (log ++ l) w'' := by
  induction h' with
  | refl =>
    rw [List.append_nil]
    exact h
  | calm _ hpath hsame ih => exact .calm ih hpath hsame
  | fired _ t ht hk hp ih =>
    rw [← List.append_assoc]
    exact .fired ih t ht hk hp

theorem antecedents_of_calm (h : ReflTransGen Calm w w') (time : Int) :
    (w'.timeline.period time).antecedents = (w.timeline.period time).antecedents := by
  induction h with
  | refl => rfl
  | tail _ hc ih => exact (hc.antecedents time).trans ih

theorem unfolds_of_calm (h : ReflTransGen Calm w w') : Unfolds w [] w' :=
  .calm .refl (path_of_evolves (evolves_of_calm h)) (antecedents_of_calm h)

theorem calm_of_corrections (h : ReflTransGen Correction w w') : ReflTransGen Calm w w' :=
  ReflTransGen.mono (fun _ _ hc => hc.calm) w w' h

theorem unfolds_fireAll (hg : w.graph.WellFormed)
    (hl : ∀ t ∈ ts, t ∈ w.graph.declared ∧ t.isTriggered = true) :
    Unfolds w (firingsOf ts w) ((fireAll ts).run w).2 := by
  induction ts generalizing w with
  | nil => exact .refl
  | cons t rest ih =>
    obtain ⟨ht, hk⟩ := hl t List.mem_cons_self
    have hrest := fun u hu => hl u (List.mem_cons_of_mem t hu)
    -- What is left to be done gathers the answer, and no more happens to the world.
    have hgather : ∀ (fired : Bool) w', ((fireAll rest >>= fun others =>
        pure (if fired then t :: others else others) : Action (List Variable)).run w').2 =
          ((fireAll rest).run w').2 := by
      intro fired w'
      rw [run_bind]
      rcases (fireAll rest).run w' with ⟨_ | _, _⟩
      · rfl
      · rfl
    show Unfolds w _ ((fire t >>= fun fired => fireAll rest >>= fun others =>
      pure (if fired then t :: others else others) : Action (List Variable)).run w).2
    rw [firingsOf]
    rcases fire_run_cases t w with ⟨r, hr, hrun⟩ | ⟨hp, hrun⟩
    · rw [hrun]
      rcases r with e | _ | _
      · rw [run_bind, hrun]
        exact .refl
      · rw [run_bind_ok hrun, hgather]
        exact ih hg hrest
      · exact absurd rfl hr
    · rw [hrun, run_bind_ok hrun, hgather]
      exact (Unfolds.fired .refl t ht hk hp).trans (ih hg hrest)

theorem unfolds_examine (hg : w.graph.WellFormed) (name : String) :
    Unfolds w (firingsOf (w.graph.triggersDependentOn name) w)
      ((fireAll (w.graph.triggersDependentOn name) >>= reconcileFirings).run w).2 := by
  have hlatches : ∀ t ∈ w.graph.triggersDependentOn name,
      t ∈ w.graph.declared ∧ t.isTriggered = true := fun t ht => mem_triggersDependentOn hg ht
  have hfired := unfolds_fireAll hg hlatches
  have hexamined := stays_fireAll hg hlatches
  rcases hrun : (fireAll (w.graph.triggersDependentOn name)).run w with ⟨e | fired, w'⟩
  · rw [run_bind, hrun]
    rw [hrun] at hfired
    exact hfired
  · rw [run_bind_ok hrun]
    rw [hrun] at hfired
    have hgraph := graph_eq_of_aftermath (hexamined.path hrun)
    have hreconciled := calm_of_corrections (stays_reconcileFirings (hgraph ▸ hg) fired)
    have hend := hfired.trans (unfolds_of_calm hreconciled)
    rwa [List.append_nil] at hend

theorem unfolds_write (hg : w.graph.WellFormed) (s : Symbol) (b : Bool) :
    Unfolds w (w.firings (.write s b)) ((write s b).run w).2 := by
  rw [firings]
  cases hr : w.graph.require s with
  | error e =>
    rw [write_run_foreign hr]
    exact .refl
  | ok v =>
    have hsettled := stays_settle hg (Graph.require_eq_ok hr).1 b
    rw [write_run_of_require hr]
    dsimp only
    rcases hrun : (settle v b).run w with ⟨e | ⟨⟩, w'⟩
    · rw [run_bind, hrun]
      exact unfolds_of_calm (hsettled.path hrun)
    · rw [run_bind_ok hrun]
      have hcalm := hsettled.path hrun
      have hgraph := graph_eq_of_calm hcalm
      rw [← hgraph] at hg ⊢
      exact (unfolds_of_calm hcalm).trans (unfolds_examine hg v.name)

/-- **Every call unfolds** in its firings, also if it is refused. -/
theorem unfolds_next (hg : w.graph.WellFormed) (c : Call) :
    Unfolds w (w.firings c) (w.next c) := by
  cases c with
  | peek s =>
    rw [(answer_peek w s).2]
    exact .refl
  | read s =>
    show Unfolds w [] ((some <$> read s).run w).2
    rw [run_some]
    exact unfolds_of_calm (stays_read s w)
  | write s b =>
    rw [(answer_write rfl).2]
    exact unfolds_write hg s b
  | travel time =>
    obtain ⟨w', hw, htimeline⟩ := exists_corrections_travel hg time
    refine .calm .refl (path_next hg _) ?_
    intro other
    rw [htimeline]
    exact antecedents_of_calm (calm_of_corrections hw) other
  | canTravel time =>
    refine .calm .refl (path_next hg _) ?_
    intro other
    rw [timeline_canTravel hg]
  | assign field d => exact .calm .refl (path_next hg _) fun _ => rfl

theorem unfolds_after (hg : w.graph.WellFormed) (calls : List Call) :
    Unfolds w (w.firingLog calls) (w.after calls) := by
  induction calls generalizing w with
  | nil => exact .refl
  | cons c rest ih =>
    have hfirst := unfolds_next hg c
    exact hfirst.trans (ih (graph_next hg c ▸ hg))

/-! ### What the log tells of the periods -/

/-- The log tells all that there is to know of the antecedents: no latch fires twice in one period,
nor when it is known to have fired; since then it is known to have; and the antecedents are those of
the firings. -/
structure Tallies (g : Graph) (log : List Firing) (w : World) : Prop where
  nodup : (log.map Firing.key).Nodup
  news : ∀ f ∈ log, f.before.peek f.trigger.name ≠ some true
  latches : ∀ f ∈ log, f.trigger ∈ g.declared ∧ f.trigger.isTriggered = true
  known : ∀ f ∈ log, (w.timeline.period f.time).peek f.trigger.name = some true
  antecedents : ∀ time name a, (w.timeline.period time).antecedents.get? name = some a ↔
    ∃ f ∈ log, f.key = (time, name) ∧ a = f.antecedent g

theorem tallies_start (g : Graph) (settings : Settings) (time? : Option Int) :
    Tallies g [] (start g settings time?) where
  nodup := List.nodup_nil
  news := fun _ hf => nomatch hf
  latches := fun _ hf => nomatch hf
  known := fun _ hf => nomatch hf
  antecedents := by
    intro time name a
    rw [period_start]
    exact ⟨nofun, fun ⟨_, hf, _⟩ => nomatch hf⟩

section

variable (hg : w.graph.WellFormed)

include hg

theorem Tallies.calm (h : Tallies w.graph log w) (hpath : Path w w')
    (hsame : ∀ time,
      (w'.timeline.period time).antecedents = (w.timeline.period time).antecedents) :
    Tallies w.graph log w' where
  nodup := h.nodup
  news := h.news
  latches := h.latches
  known := by
    intro f hf
    obtain ⟨ht, hk⟩ := h.latches f hf
    exact peek_latch_of_path hg hpath ht hk (h.known f hf)
  antecedents := by
    intro time name a
    rw [hsame]
    exact h.antecedents time name a

omit hg in
theorem get?_antecedents_fired (w : World) (t : Variable) (time : Int) (name : String) :
    ((w.setPeriod (w.current.fired w.graph t)).timeline.period time).antecedents.get? name =
      if (w.now, t.name) = (time, name) then some (w.current.antecedentOf w.graph t)
      else (w.timeline.period time).antecedents.get? name := by
  show ((w.timeline.put _).period time).antecedents.get? name = _
  rw [Timeline.period_put, Period.time_fired, time_current]
  by_cases htime : w.now = time
  · rw [if_pos htime, Period.antecedents_fired, Table.get?_set]
    by_cases hname : t.name = name
    · rw [if_pos hname, if_pos (by rw [htime, hname])]
    · rw [if_neg hname, if_neg fun h => hname (Prod.mk.inj h).2, ← htime]
      rfl
  · rw [if_neg htime, if_neg fun h => htime (Prod.mk.inj h).1]

/-- **A firing adds itself to the log.** -/
theorem Tallies.fired (h : Tallies w.graph log w) (ht : t ∈ w.graph.declared)
    (hk : t.isTriggered = true) (hp : w.current.peek t.name ≠ some true) :
    Tallies w.graph (log ++ [⟨t, w.current⟩]) (w.setPeriod (w.current.fired w.graph t)) := by
  have htime : w.current.time = w.now := time_current w
  -- The latch has not fired here before, for then it would be known.
  have hnew : ∀ f ∈ log, f.key ≠ (w.now, t.name) := by
    intro f hf hkey
    obtain ⟨hnow, hname⟩ := Prod.mk.inj hkey
    have hknown := h.known f hf
    rw [hnow, hname] at hknown
    exact hp hknown
  have hkey : Firing.key ⟨t, w.current⟩ = (w.now, t.name) := congrArg (·, t.name) htime
  have hpath : Path w (w.setPeriod (w.current.fired w.graph t)) :=
    ReflTransGen.single (.change (.fired t ht hk hp))
  have hall : ∀ {P : Firing → Prop}, (∀ f ∈ log, P f) → P ⟨t, w.current⟩ →
      ∀ f ∈ log ++ [⟨t, w.current⟩], P f := by
    intro P hlog hlast f hf
    rcases List.mem_append.mp hf with hf | hf
    · exact hlog f hf
    · exact List.mem_singleton.mp hf ▸ hlast
  refine ⟨?_, hall h.news hp, hall h.latches ⟨ht, hk⟩, hall ?_ ?_, ?_⟩
  · rw [List.map_append, List.map_singleton, List.nodup_append]
    refine ⟨h.nodup, List.nodup_singleton _, ?_⟩
    intro k hk' k' hlast
    obtain ⟨f, hf, rfl⟩ := List.mem_map.mp hk'
    rw [List.mem_singleton.mp hlast, hkey]
    exact hnew f hf
  · intro f hf
    obtain ⟨hf', hk'⟩ := h.latches f hf
    exact peek_latch_of_path hg hpath hf' hk' (h.known f hf)
  · have hput : (w.setPeriod (w.current.fired w.graph t)).timeline.period w.current.time =
        w.current.fired w.graph t := by
      rw [htime]
      exact current_fired w w.graph t
    show ((w.setPeriod (w.current.fired w.graph t)).timeline.period w.current.time).peek _ = _
    rw [hput]
    exact Period.peek_fired_self hg ht hk
  · intro time name a
    rw [get?_antecedents_fired]
    split
    next he =>
      refine ⟨?_, ?_⟩
      · rintro ⟨⟩
        exact ⟨⟨t, w.current⟩, List.mem_append_right log (List.mem_singleton_self _),
          hkey.trans he, rfl⟩
      · rintro ⟨f, hf, hf', rfl⟩
        rcases List.mem_append.mp hf with hf | hf
        · exact absurd (hf'.trans he.symm) (hnew f hf)
        · rw [List.mem_singleton.mp hf]
          rfl
    next hne =>
      rw [h.antecedents]
      refine ⟨?_, ?_⟩
      · rintro ⟨f, hf, hrest⟩
        exact ⟨f, List.mem_append_left _ hf, hrest⟩
      · rintro ⟨f, hf, hf', ha⟩
        rcases List.mem_append.mp hf with hf | hf
        · exact ⟨f, hf, hf', ha⟩
        · rw [List.mem_singleton.mp hf] at hf'
          exact absurd (hkey.symm.trans hf') hne

end

theorem Unfolds.path (h : Unfolds w log w') : Path w w' := by
  induction h with
  | refl => exact ReflTransGen.refl
  | calm _ hpath _ ih => exact ih.trans hpath
  | fired _ t ht hk hp ih => exact ih.tail (.change (.fired t ht hk hp))

/-- **What unfolds from a fresh world**, its log tells. -/
theorem Unfolds.tallies (hg : w.graph.WellFormed) (hw : Tallies w.graph [] w)
    (h : Unfolds w log w') : Tallies w.graph log w' := by
  induction h with
  | refl => exact hw
  | calm h hpath hsame ih =>
    have hgraph := graph_eq_of_path h.path
    rw [← hgraph] at ih hg ⊢
    exact ih.calm hg hpath hsame
  | fired h t ht hk hp ih =>
    have hgraph := graph_eq_of_path h.path
    rw [← hgraph] at ih hg ⊢
    exact ih.fired hg ht hk hp

theorem HasFired.tallies (hg : g.WellFormed) (h : HasFired g log w) : Tallies g log w := by
  obtain ⟨settings, time?, calls, rfl, rfl⟩ := h
  exact (unfolds_after (w := start g settings time?) hg calls).tallies hg
    (tallies_start g settings time?)

end World

namespace Firing

variable {g : Graph}

theorem get?_recorded_eq_some_iff (hg : g.WellFormed) (f : Firing) {name : String} {b : Bool} :
    (f.antecedent g).recorded.get? name = some b ↔
      ∃ v ∈ g.declared, v.name = name ∧ f.trigger.dependsOn name = true ∧
        f.before.peek name = some b := by
  rw [antecedent, Period.recorded_antecedentOf, Period.get?_collect_eq_some_iff hg.nodup]
  refine exists_congr fun v => and_congr_right fun _ => and_congr_right ?_
  rintro rfl
  cases f.trigger.dependsOn v.name <;> simp

end Firing

namespace World

variable {g : Graph} {w : World} {log : List Firing}

/-- **Latches are one-way, and fire once in each period.**  What a period knows to have fired it
knows for the rest of the history, and every read there is true.  No latch fires twice in one
period, nor when the period knows that it has.  An antecedent is that of a firing, one for each, and
never changes; it records just what the period knew of what the latch depends on when it fired. -/
theorem latches_fire_once (hg : g.IsValid) (hw : HasFired g log w) :
    (∀ t ∈ g.declared, t.isTriggered = true → ∀ time,
      (w.timeline.period time).peek t.name = some true → ∀ calls,
        ((w.after calls).timeline.period time).peek t.name = some true ∧
          ((w.after calls).now = time →
            (w.after calls).answer (.read t.symbol) = .ok (some true))) ∧
    (log.map Firing.key).Nodup ∧
    (∀ f ∈ log, f.before.peek f.trigger.name ≠ some true) ∧
    (∀ time name a, (w.timeline.period time).antecedents.get? name = some a ↔
      ∃ f ∈ log, f.key = (time, name) ∧ a = f.antecedent g) ∧
    (∀ time name a, (w.timeline.period time).antecedents.get? name = some a → ∀ calls,
      ((w.after calls).timeline.period time).antecedents.get? name = some a) ∧
    (∀ f ∈ log, ∀ name b, (f.antecedent g).recorded.get? name = some b ↔
      ∃ v ∈ g.declared, v.name = name ∧ f.trigger.dependsOn name = true ∧
        f.before.peek name = some b) := by
  have hwell := hg.wellFormed
  have htallies := hw.tallies hwell
  refine ⟨?_, htallies.nodup, htallies.news, htallies.antecedents, ?_, ?_⟩
  · intro t ht hk time hp calls
    obtain rfl := hw.reachable.graph_eq hwell
    have hpath := path_after hwell calls
    have hgraph := graph_eq_of_path hpath
    have hpeek := peek_latch_of_path hwell hpath ht hk hp
    refine ⟨hpeek, ?_⟩
    rintro rfl
    exact (answer_read (peek_of_current (hgraph ▸ hwell) (hgraph ▸ ht) hpeek)).1
  · intro time name a ha calls
    obtain ⟨f, hf, hrest⟩ := (htallies.antecedents time name a).mp ha
    exact (((hw.after calls).tallies hwell).antecedents time name a).mpr
      ⟨f, List.mem_append_left _ hf, hrest⟩
  · intro f _ name b
    exact f.get?_recorded_eq_some_iff hwell

/-- The rope was pulled and let go: two latches fired, and then the one that rests on the first. -/
def tolling : List Call :=
  [.write Graph.Belfry.rope.symbol true, .write Graph.Belfry.rope.symbol false]

/-- The toll stays true for its tick, whoever comes back and pulls again. -/
theorem latches_fire_once_tolled :
    HasFired Graph.belfry ((start Graph.belfry .standard none).firingLog tolling) tolled ∧
      ((start Graph.belfry .standard none).firingLog tolling).map Firing.key =
        [(0, "toll"), (0, "crack"), (0, "feast")] ∧
      (tolled.after [.travel 1, .travel 0, .write Graph.Belfry.rope.symbol true]).answer
        (.read Graph.Belfry.toll.symbol) = .ok (some true) := by
  have hfired : HasFired Graph.belfry ((start Graph.belfry .standard none).firingLog tolling)
      tolled := ⟨.standard, none, tolling, rfl, rfl⟩
  obtain ⟨hstays, _⟩ := latches_fire_once Graph.belfry_isValid hfired
  obtain ⟨_, hread⟩ := hstays Graph.Belfry.toll (by simp [Graph.belfry]) rfl 0 (by decide +kernel)
    [.travel 1, .travel 0, .write Graph.Belfry.rope.symbol true]
  exact ⟨hfired, by decide +kernel, hread (by decide +kernel)⟩

end World

end Chronicle
