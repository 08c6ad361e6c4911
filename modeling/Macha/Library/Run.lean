import Mathlib

/-!
# Runs of a transition system

A step relation labelled with events, its finite runs, and the two induction
rules every safety proof uses: for an invariant of the states, and for a
property of each event that may look at the events before it.
-/

namespace Macha

open List Option

variable {σ ε : Type}

/-- A finite run from `s`, with the events of its steps in order. -/
inductive Run (step : σ → ε → σ → Prop) (s : σ) : List ε → σ → Prop
  | refl : Run step s [] s
  | snoc {events : List ε} {t u : σ} {event : ε} :
      Run step s events t → step t event u → Run step s (events ++ [event]) u

namespace Run

variable {step : σ → ε → σ → Prop} {s t : σ} {events : List ε}

/-- What holds at the start and is kept by every step holds after every run;
the property may speak of the events so far. -/
theorem invariant {P : List ε → σ → Prop} (run : Run step s events t) (start : P [] s)
    (keeps : ∀ past u event v, P past u → step u event v → P (past ++ [event]) v) :
    P events t := by
  induction run with
  | refl => exact start
  | snoc run hstep ih => exact keeps _ _ _ _ ih hstep

end Run

/-- Every event of the list satisfies `P`, given the events before it. -/
def Always (P : List ε → ε → Prop) (events : List ε) : Prop :=
  ∀ past event, past ++ [event] <+: events → P past event

theorem always_nil (P : List ε → ε → Prop) : Always P [] := by
  intro past event h
  simp at h

variable {event : ε}

theorem always_snoc {P : List ε → ε → Prop} {events : List ε} :
    Always P (events ++ [event]) ↔ Always P events ∧ P events event := by
  constructor
  · intro h
    exact ⟨fun past e hpast => h past e (hpast.trans (prefix_append _ _)),
      h events event (prefix_refl _)⟩
  · rintro ⟨hall, hlast⟩ past e hpast
    rcases prefix_concat_iff.1 hpast with heq | hpast
    · rcases append_inj' heq rfl with ⟨rfl, he⟩
      rw [singleton_inj.1 he]
      exact hlast
    · exact hall past e hpast

theorem Always.forall_mem {P : ε → Prop} {events : List ε} (h : Always (fun _ e => P e) events) :
    ∀ event ∈ events, P event := by
  intro event hevent
  obtain ⟨past, rest, rfl⟩ := append_of_mem hevent
  exact h past event ⟨rest, by simp⟩

structure Transition (σ ε : Type) where
  before : σ
  event : ε
  after : σ

/-- The steps labelled with their whole transition, so that a property of the
events of a run may speak of the states it passes. -/
def Traced (step : σ → ε → σ → Prop) (s : σ) (t : Transition σ ε) (u : σ) : Prop :=
  step s t.event u ∧ t.before = s ∧ t.after = u

theorem Run.trace_snoc {step : σ → ε → σ → Prop} {s t u : σ} {events : List (Transition σ ε)}
    (run : Run (Traced step) s events t) (h : step t event u) :
    Run (Traced step) s (events ++ [⟨t, event, u⟩]) u :=
  run.snoc ⟨h, rfl, rfl⟩

theorem Run.exists_trace {step : σ → ε → σ → Prop} {s t : σ} {events : List ε}
    (run : Run step s events t) :
    ∃ trace, Run (Traced step) s trace t ∧ trace.map (·.event) = events := by
  induction run with
  | refl => exact ⟨[], .refl, rfl⟩
  | snoc run hstep ih =>
    obtain ⟨trace, htrace, hevents⟩ := ih
    exact ⟨_, htrace.trace_snoc hstep, by rw [map_append, hevents]; rfl⟩

variable {trace : List (Transition σ ε)} {K : Transition σ ε → Prop}

theorem always_of_events {P : Transition σ ε → Prop} {events : List ε}
    (htrace : trace.map (·.event) = events) (h : ∀ t : Transition σ ε, t.event ∈ events → P t) :
    Always (fun _ t => P t) trace := by
  intro past t hpast
  refine h t ?_
  rw [← htrace]
  exact List.mem_map_of_mem (hpast.subset (mem_append_right _ mem_cons_self))

theorem Run.forall_step {step : σ → ε → σ → Prop} {s t : σ} (run : Run (Traced step) s trace t) :
    ∀ t ∈ trace, step t.before t.event t.after := by
  induction run with
  | refl => exact nofun
  | snoc run hstep ih =>
    refine forall_mem_append.2 ⟨ih, forall_mem_singleton.2 ?_⟩
    rw [hstep.2.1, hstep.2.2]
    exact hstep.1

variable {P : σ → Prop}

theorem Run.invariant_of_always {step : σ → ε → σ → Prop} {s t : σ}
    (run : Run (Traced step) s trace t) (halways : Always (fun _ t => K t) trace) (start : P s)
    (keeps : ∀ u event v, step u event v → P u → K ⟨u, event, v⟩ → P v) : P t := by
  induction run with
  | refl => exact start
  | @snoc trace u v transition run hstep ih =>
    obtain ⟨_, event, _⟩ := transition
    obtain ⟨hstep, hbefore, hafter⟩ := hstep
    subst hbefore hafter
    obtain ⟨hpast, hlast⟩ := always_snoc.1 halways
    exact keeps _ _ _ hstep (ih hpast) hlast

theorem Run.forall_before {step : σ → ε → σ → Prop} {s t : σ} (run : Run (Traced step) s trace t)
    (halways : Always (fun _ t => K t) trace) (start : P s)
    (keeps : ∀ u event v, step u event v → P u → K ⟨u, event, v⟩ → P v) :
    ∀ t ∈ trace, P t.before := by
  induction run with
  | refl => exact nofun
  | @snoc trace u v transition run hstep ih =>
    have hpast := (always_snoc.1 halways).1
    refine forall_mem_append.2 ⟨ih hpast, forall_mem_singleton.2 ?_⟩
    rw [hstep.2.1]
    exact run.invariant_of_always hpast start keeps

/-- Where a step from a state with `P` reaches one with `P` exactly if its transition has `K`,
`P` holds all along a run exactly if every transition has `K`. -/
theorem Run.forall_after_iff {step : σ → ε → σ → Prop} {s t : σ} (run : Run (Traced step) s trace t)
    (start : P s) (keeps : ∀ u event v, step u event v → P u → (P v ↔ K ⟨u, event, v⟩)) :
    (∀ t ∈ trace, P t.after) ↔ ∀ t ∈ trace, K t := by
  have hall : ((∀ t ∈ trace, P t.after) ↔ ∀ t ∈ trace, K t) ∧ ((∀ t ∈ trace, P t.after) → P t) := by
    induction run with
    | refl => exact ⟨by simp, fun _ => start⟩
    | @snoc trace u v transition run hstep ih =>
      obtain ⟨_, event, _⟩ := transition
      obtain ⟨hstep, hbefore, hafter⟩ := hstep
      subst hbefore hafter
      obtain ⟨hiff, hlast⟩ := ih
      simp only [forall_mem_append, forall_mem_singleton]
      refine ⟨?_, fun h => h.2⟩
      rw [← hiff]
      exact and_congr_right fun hpast => keeps _ _ _ hstep (hlast hpast)
  exact hall.1

/-- The steps of a machine whose events lead to one state, if they are possible. -/
def Computes (step : σ → ε → Option σ) (s : σ) (event : ε) (t : σ) : Prop :=
  step s event = some t

theorem computes_getD {step : σ → ε → Option σ} {s d : σ} (h : (step s event).isSome = true) :
    Computes step s event ((step s event).getD d) := by
  obtain ⟨t, ht⟩ := isSome_iff_exists.1 h
  unfold Computes
  rw [ht]
  rfl

theorem run_of_foldlM {step : σ → ε → Option σ} {events : List ε} {s t : σ}
    (h : events.foldlM step s = some t) : Run (Computes step) s events t := by
  induction events using reverseRecOn generalizing t with
  | nil =>
    cases h
    exact .refl
  | append_singleton events event ih =>
    rw [foldlM_append] at h
    obtain ⟨middle, hmiddle, h⟩ := bind_eq_some_iff.1 h
    obtain ⟨next, hnext, h⟩ := bind_eq_some_iff.1 h
    cases h
    exact (ih hmiddle).snoc hnext

theorem exists_run {step : σ → ε → Option σ} {events : List ε} {s t : σ}
    (h : events.foldlM step s = some t) :
    ∃ trace, Run (Traced (Computes step)) s trace t ∧ trace.map (·.event) = events :=
  (run_of_foldlM h).exists_trace

theorem exists_run_last {step : σ → ε → Option σ} {events : List ε} {s other last : σ}
    (h : (events.foldlM step s).isSome = true) (hlast : (events.foldlM step s).getD other = last) :
    ∃ trace, Run (Traced (Computes step)) s trace last ∧ trace.map (·.event) = events := by
  obtain ⟨t, ht⟩ := isSome_iff_exists.1 h
  rw [ht, getD_some] at hlast
  subst hlast
  exact exists_run ht

def checkedStep (step : σ → ε → Option σ) (P : Transition σ ε → Prop) [DecidablePred P] (s : σ)
    (event : ε) : Option σ :=
  (step s event).filter fun t => decide (P ⟨s, event, t⟩)

theorem exists_checked_run {step : σ → ε → Option σ} {P : Transition σ ε → Prop} [DecidablePred P]
    {events : List ε} {s t : σ} (h : events.foldlM (checkedStep step P) s = some t) :
    ∃ trace, Run (Traced (Computes step)) s trace t ∧ Always (fun _ t => P t) trace ∧
      trace.map (·.event) = events := by
  induction events using reverseRecOn generalizing t with
  | nil =>
    cases h
    exact ⟨[], .refl, always_nil _, rfl⟩
  | append_singleton events event ih =>
    rw [foldlM_append] at h
    obtain ⟨middle, hmiddle, h⟩ := bind_eq_some_iff.1 h
    obtain ⟨next, hnext, h⟩ := bind_eq_some_iff.1 h
    cases h
    obtain ⟨hstep, hP⟩ := filter_eq_some_iff.1 hnext
    obtain ⟨trace, run, halways, hevents⟩ := ih hmiddle
    exact ⟨_, run.trace_snoc hstep, always_snoc.2 ⟨halways, of_decide_eq_true hP⟩,
      by rw [map_append, hevents]; rfl⟩

end Macha
