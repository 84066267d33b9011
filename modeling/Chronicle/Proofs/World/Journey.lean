import Chronicle.Proofs.World.Change

/-!
# How a journey runs

A journey to a later time depends on what leaves the present (`leaving`), on what the destination
was fixed to start from (`started`), and on the history that is found for both.  So its end is
settled before it changes anything (`ending`), and what is left to do cannot fail: the overrides of
a history that fits can all be written (`travel_run_of_ending`).  A dry run differs in that it only
keeps its report.

A journey to a later time succeeds only by an arrival (`arrived_of_answer`).
-/

namespace Chronicle.World

open Relation (ReflTransGen)

variable {w w' : World} {time : Int} {merged : Valuation} {arrival : Arrival}
  {verdict : Verdict} {conflicts : List String}

def leaving (w : World) : Valuation := w.current.endState w.graph

def started (w : World) (time : Int) : Valuation := (w.timeline.period time).startState w.graph

def logged (w : World) (r : TravelReport) : World := { w with travelLog := w.travelLog.push r }

/-- The world at another time, which has been visited by then. -/
def moved (w : World) (time : Int) : World :=
  { w with timeline := w.timeline.visit time, now := time }

/-- The world at another time, whose start it has fixed. -/
def arrived (w : World) (time : Int) (o : Valuation) : World :=
  { w.setPeriod ((w.timeline.period time).overridden o.entries) with now := time }

theorem path_logged (w : World) (r : TravelReport) : Path w (w.logged r) :=
  ReflTransGen.single (.change (.reportedTravel r))

theorem path_arrived {o : Valuation} (h : (w.timeline.period time).Accepts o) :
    Path w (w.arrived time o) :=
  (ReflTransGen.single (.change (.overridden time o h))).tail (.departed time)

theorem path_moved (w : World) (time : Int) : Path w (w.moved time) := by
  have h : (w.timeline.period time).Accepts .empty := by
    intro name hn
    cases hn
  exact path_arrived h

theorem arriveAt_run (h : (w.timeline.period time).Accepts arrival.overrides) :
    (arriveAt time arrival).run w = (.ok (), w.arrived time arrival.overrides) := by
  have hrun := h.correctAll_run (arrival.resolved.flipsFrom arrival.candidate).names
  unfold arriveAt
  rw [run_get_bind]
  dsimp only
  rw [hrun]
  rfl

/-! ### The ends of a journey -/

theorem travel_run_stayed (w : World) (dryRun : Bool) :
    (travel w.now dryRun).run w =
      (.ok true, w.logged ⟨w.now, w.now, .stayed, dryRun, [], .empty⟩) := by
  unfold travel
  rw [run_get_bind, if_pos rfl]
  rfl

theorem travel_run_rewound (h : time < w.now) (dryRun : Bool) :
    (travel time dryRun).run w =
      (.ok true, (if dryRun then w else w.moved time).logged
        ⟨w.now, time, .rewound, dryRun, [], .empty⟩) := by
  unfold travel
  rw [run_get_bind, if_neg (by omega), if_pos h]
  cases dryRun <;> rfl

section

variable (h : w.now < time)

include h

theorem travel_run_forward (dryRun : Bool) :
    (travel time dryRun).run w =
      match w.graph.merge w.leaving (w.started time) with
      | none => (.ok false, w.logged ⟨w.now, time, .directContradiction, dryRun,
          w.graph.conflicts w.leaving (w.started time), .empty⟩)
      | some merged =>
        match Arrival.find w.graph merged (w.timeline.period time) with
        | .error e => (.error e, w)
        | .ok none =>
          (.ok false, w.logged ⟨w.now, time, .logicalContradiction, dryRun, [], .empty⟩)
        | .ok (some arrival) =>
          if dryRun then (.ok true, w.logged ⟨w.now, time, .arrived, dryRun, [], .empty⟩)
          else (arriveAt time arrival >>= fun _ =>
            reportTravel ⟨w.now, time, .arrived, dryRun, [], arrival.overrides⟩).run w := by
  unfold travel
  rw [run_get_bind, if_neg (by omega), if_neg (by omega)]
  extract_lets g destination left started
  have hmerge : g.merge left started = w.graph.merge w.leaving (w.started time) := rfl
  rw [hmerge]
  cases w.graph.merge w.leaving (w.started time) with
  | none => rfl
  | some merged =>
    dsimp only
    have hfind : Arrival.find g merged destination =
        Arrival.find w.graph merged (w.timeline.period time) := rfl
    rw [hfind]
    rcases Arrival.find w.graph merged (w.timeline.period time) with e | _ | arrival
    · rfl
    · rfl
    · cases dryRun <;> rfl

variable (hm : w.graph.merge w.leaving (w.started time) = some merged)

include hm

variable (hf : Arrival.find w.graph merged (w.timeline.period time) = .ok (some arrival))

include hf

theorem travel_run_found :
    (travel time true).run w =
      (.ok true, w.logged ⟨w.now, time, .arrived, true, [], .empty⟩) := by
  rw [travel_run_forward h, hm]
  dsimp only
  rw [hf]
  rfl

theorem travel_run_arrived (hg : w.graph.WellFormed) :
    (travel time false).run w =
      (.ok true, (w.arrived time arrival.overrides).logged
        ⟨w.now, time, .arrived, false, [], arrival.overrides⟩) := by
  have hrun := arriveAt_run (w := w) ((Arrival.fits_of_find hf).accepts hg)
  rw [travel_run_forward h, hm]
  dsimp only
  rw [hf]
  dsimp only
  rw [if_neg Bool.false_ne_true, run_bind_ok hrun]
  rfl

end

/-! ### The end is settled first -/

/-- How a journey would end, and on what its two ends contradict each other. -/
def ending (w : World) (time : Int) : Except Error (Verdict × List String) :=
  if time = w.now then .ok (.stayed, [])
  else if time < w.now then .ok (.rewound, [])
  else match w.graph.merge w.leaving (w.started time) with
    | none => .ok (.directContradiction, w.graph.conflicts w.leaving (w.started time))
    | some merged => do
      match ← Arrival.find w.graph merged (w.timeline.period time) with
      | none => return (.logicalContradiction, [])
      | some _ => return (.arrived, [])

theorem ending_logged (w : World) (r : TravelReport) (time : Int) :
    (w.logged r).ending time = w.ending time := rfl

/-- **A journey ends as settled.**  A dry run leaves the world as it was, but for the report. -/
theorem travel_run_of_ending (hg : w.graph.WellFormed)
    (h : w.ending time = .ok (verdict, conflicts)) (dryRun : Bool) :
    ∃ w' overrides, (travel time dryRun).run w = (.ok verdict.succeeded,
        w'.logged ⟨w.now, time, verdict, dryRun, conflicts, overrides⟩) ∧
      (dryRun = true → w' = w) ∧ w'.travelLog = w.travelLog ∧ Path w w' := by
  unfold ending at h
  split at h
  next ht =>
    cases h
    subst ht
    exact ⟨w, _, travel_run_stayed w dryRun, fun _ => rfl, rfl, ReflTransGen.refl⟩
  next ht =>
    split at h
    next hlt =>
      cases h
      cases dryRun with
      | true => exact ⟨w, _, travel_run_rewound hlt true, fun _ => rfl, rfl, ReflTransGen.refl⟩
      | false =>
        exact ⟨_, _, travel_run_rewound hlt false, (nomatch ·), rfl, path_moved w time⟩
    next hge =>
      have hlt : w.now < time := by omega
      split at h
      next hm =>
        cases h
        refine ⟨w, .empty, ?_, fun _ => rfl, rfl, ReflTransGen.refl⟩
        rw [travel_run_forward hlt, hm]
        rfl
      next merged hm =>
        obtain ⟨found, hf, h⟩ := bind_eq_ok.mp h
        cases found with
        | none =>
          cases h
          refine ⟨w, .empty, ?_, fun _ => rfl, rfl, ReflTransGen.refl⟩
          rw [travel_run_forward hlt, hm]
          dsimp only
          rw [hf]
          rfl
        | some arrival =>
          cases h
          cases dryRun with
          | true =>
            exact ⟨w, _, travel_run_found hlt hm hf, fun _ => rfl, rfl, ReflTransGen.refl⟩
          | false =>
            have hpath := path_arrived ((Arrival.fits_of_find hf).accepts hg)
            exact ⟨_, _, travel_run_arrived hlt hm hf hg, (nomatch ·), rfl, hpath⟩

theorem travel_run_of_ending_error {e : Error} (h : w.ending time = .error e) (dryRun : Bool) :
    (travel time dryRun).run w = (.error e, w) := by
  unfold ending at h
  split at h
  · cases h
  · split at h
    · cases h
    · split at h
      · cases h
      next merged hm =>
        rw [travel_run_forward (by omega), hm]
        dsimp only
        rcases hf : Arrival.find w.graph merged (w.timeline.period time) with e' | _ | arrival
        · rw [hf] at h
          cases h
          rfl
        · rw [hf] at h
          cases h
        · rw [hf] at h
          cases h

/-! ### Journeys as calls -/

theorem run_some {α : Type} (act : Action α) (w : World) :
    (some <$> act).run w = ((act.run w).1.map some, (act.run w).2) := by
  show (act >>= fun a => pure (some a)).run w = _
  rw [run_bind]
  rcases act.run w with ⟨e | a, w'⟩
  · rfl
  · rfl

theorem run_some_ok {α : Type} {act : Action α} {a : α} (h : act.run w = (.ok a, w')) :
    (some <$> act).run w = (.ok (some a), w') := by
  rw [run_some, h]
  rfl

theorem next_travel (w : World) (time : Int) :
    w.next (.travel time) = ((travel time false).run w).2 := by
  show ((some <$> travel time false).run w).2 = _
  rw [run_some]

theorem next_canTravel (w : World) (time : Int) :
    w.next (.canTravel time) = ((travel time true).run w).2 := by
  show ((some <$> travel time true).run w).2 = _
  rw [run_some]

theorem answer_travel {b : Bool} (h : (travel time false).run w = (.ok b, w')) :
    w.answer (.travel time) = .ok (some b) ∧ w.next (.travel time) = w' :=
  ⟨congrArg Prod.fst (run_some_ok h), congrArg Prod.snd (run_some_ok h)⟩

theorem answer_canTravel {b : Bool} (h : (travel time true).run w = (.ok b, w')) :
    w.answer (.canTravel time) = .ok (some b) ∧ w.next (.canTravel time) = w' :=
  ⟨congrArg Prod.fst (run_some_ok h), congrArg Prod.snd (run_some_ok h)⟩

theorem run_of_answer {b : Bool} (h : w.answer (.travel time) = .ok (some b)) :
    (travel time false).run w = (.ok b, w.next (.travel time)) := by
  have h' : ((some <$> travel time false).run w).1 = .ok (some b) := h
  show _ = (Except.ok b, ((some <$> travel time false).run w).2)
  rw [run_some] at h' ⊢
  rcases hrun : (travel time false).run w with ⟨e | c, w'⟩
  · rw [hrun] at h'
    cases h'
  · rw [hrun] at h'
    cases h'
    rfl

theorem current_arrived (w : World) (time : Int) (o : Valuation) (r : TravelReport) :
    ((w.arrived time o).logged r).current = (w.timeline.period time).overridden o.entries := by
  show (w.timeline.put _).period time = _
  rw [Timeline.period_put, if_pos]
  rw [Period.time_overridden, Timeline.time_period]

/-- **A journey to a later time that succeeds** has found a history, and its overrides are all that
it changes in the timeline. -/
theorem arrived_of_answer (hg : w.graph.WellFormed) (ht : w.now < time)
    (h : w.answer (.travel time) = .ok (some true)) :
    ∃ merged arrival, w.graph.merge w.leaving (w.started time) = some merged ∧
      Arrival.find w.graph merged (w.timeline.period time) = .ok (some arrival) ∧
      w.next (.travel time) = (w.arrived time arrival.overrides).logged
        ⟨w.now, time, .arrived, false, [], arrival.overrides⟩ := by
  have hrun := run_of_answer h
  have hforward := travel_run_forward ht false
  rw [hrun] at hforward
  cases hm : w.graph.merge w.leaving (w.started time) with
  | none =>
    rw [hm] at hforward
    cases hforward
  | some merged =>
    rw [hm] at hforward
    dsimp only at hforward
    rcases hf : Arrival.find w.graph merged (w.timeline.period time) with e | _ | arrival
    · rw [hf] at hforward
      cases hforward
    · rw [hf] at hforward
      cases hforward
    · rw [travel_run_arrived ht hm hf hg] at hrun
      exact ⟨merged, arrival, rfl, hf, (Prod.mk.inj hrun).2.symm⟩

end Chronicle.World
