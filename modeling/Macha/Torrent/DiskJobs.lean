import Macha.Library.Run
import Macha.Library.Collect

/-!
# The jobs of a storage

`enqueue` puts a job behind the others of its storage, and the storage into the ready
queue unless it is scheduled already. A worker takes the first storage of the queue
and its first job, runs the job without the lock, and then puts the storage back or
takes its mark away. Workers differ in nothing but the job they run.
-/

namespace Macha

open List

/-- `submitted`, `ran` and `atStop` remember the jobs of each storage submitted and run
so far, and how many were submitted before `stop`. -/
structure DiskIo (σ β : Type) where
  jobs : σ → List β := fun _ => []
  scheduled : σ → Bool := fun _ => false
  ready : List σ := []
  idle : Nat
  running : List (σ × β) := []
  stopping : Bool := false
  submitted : σ → List β := fun _ => []
  ran : σ → List β := fun _ => []
  atStop : σ → Nat := fun _ => 0

inductive DiskEvent (σ β : Type)
  | enqueue (storage : σ) (job : β)
  | take
  | finish (storage : σ) (job : β)
  | exit
  | stop

namespace DiskIo

variable {σ β : Type}

/-- What is known of one storage; `ready` counts its places in the queue. -/
structure View (β : Type) where
  submitted : List β
  ran : List β
  running : List β
  jobs : List β
  ready : Nat
  scheduled : Bool
  atStop : Nat

/-- A scheduled storage is in the queue or with a worker, once; another has no jobs. -/
structure View.Served (v : View β) : Prop where
  order : v.submitted = v.ran ++ v.running ++ v.jobs
  once : v.ready + v.running.length = if v.scheduled then 1 else 0
  waiting : 0 < v.ready → v.jobs ≠ []
  unscheduled : v.scheduled = false → v.jobs = []
  before : v.atStop ≤ v.submitted.length

variable {v : View β} {job : β}

namespace View.Served

theorem single (h : v.Served) : v.running.length ≤ 1 := by
  have honce := h.once
  split at honce <;> omega

theorem enqueue (h : v.Served) (job : β) : ({ v with
      submitted := v.submitted ++ [job]
      jobs := v.jobs ++ [job]
      ready := if v.scheduled then v.ready else v.ready + 1
      scheduled := true } : View β).Served where
  order := by simp [h.order]
  once := by
    have honce := h.once
    cases hscheduled : v.scheduled <;> simp [hscheduled] at honce ⊢ <;> simp [honce]
  waiting := by simp
  unscheduled := nofun
  before := by
    have hbefore := h.before
    simp only [length_append]
    omega

theorem take (h : v.Served) {jobs : List β} (hjobs : v.jobs = job :: jobs) (hready : 0 < v.ready) :
    ({ v with
      running := job :: v.running
      jobs := jobs
      ready := v.ready - 1 } : View β).Served := by
  -- The storage was in the queue once, so that no worker has it.
  have honce := h.once
  have hnone : v.running = [] ∧ v.ready = 1 ∧ v.scheduled = true := by
    rw [← length_eq_zero_iff]
    split at honce
    · refine ⟨by omega, by omega, ‹_›⟩
    · omega
  refine ⟨?_, ?_, ?_, ?_, h.before⟩
  · simp [h.order, hnone, hjobs]
  · simp [hnone]
  · simp [hnone]
  · simp [hnone]

theorem finish (h : v.Served) (hrunning : v.running = [job]) : ({ v with
      ran := v.ran ++ [job]
      running := []
      ready := if v.jobs.isEmpty then v.ready else v.ready + 1
      scheduled := !v.jobs.isEmpty } : View β).Served := by
  have honce := h.once
  have hready : v.ready = 0 := by
    rw [hrunning, length_singleton] at honce
    split at honce <;> omega
  refine ⟨by simp [h.order, hrunning], ?_, ?_, by simp, h.before⟩
  · cases v.jobs.isEmpty <;> simp [hready]
  · cases hempty : v.jobs.isEmpty
    · simpa using hempty
    · simp [hready]

end View.Served

variable [DecidableEq σ]

def start (threads : Nat) : DiskIo σ β := { idle := max 1 threads }

def enqueue (d : DiskIo σ β) (storage : σ) (job : β) : DiskIo σ β :=
  { d with
    jobs := Function.update d.jobs storage (d.jobs storage ++ [job])
    scheduled := Function.update d.scheduled storage true
    ready := if d.scheduled storage then d.ready else d.ready ++ [storage]
    submitted := Function.update d.submitted storage (d.submitted storage ++ [job]) }

def take (d : DiskIo σ β) : Option (DiskIo σ β) := do
  guard (0 < d.idle)
  let storage ← d.ready.head?
  let job ← (d.jobs storage).head?
  some
    { d with
      ready := d.ready.tail
      jobs := Function.update d.jobs storage (d.jobs storage).tail
      idle := d.idle - 1
      running := (storage, job) :: d.running }

def finish [DecidableEq β] (d : DiskIo σ β) (storage : σ) (job : β) : DiskIo σ β :=
  { d with
    scheduled := Function.update d.scheduled storage !(d.jobs storage).isEmpty
    ready := if (d.jobs storage).isEmpty then d.ready else d.ready ++ [storage]
    idle := d.idle + 1
    running := d.running.erase (storage, job)
    ran := Function.update d.ran storage (d.ran storage ++ [job]) }

def step [DecidableEq β] (d : DiskIo σ β) : DiskEvent σ β → Option (DiskIo σ β)
  | .enqueue storage job => some (d.enqueue storage job)
  | .take => d.take
  | .finish storage job => do
    guard ((storage, job) ∈ d.running)
    some (d.finish storage job)
  | .exit => do
    guard (0 < d.idle ∧ d.stopping = true ∧ d.ready = [])
    some { d with idle := d.idle - 1 }
  | .stop => do
    guard (d.stopping = false)
    some { d with stopping := true, atStop := fun storage => (d.submitted storage).length }

/-- The jobs of one storage among pairs of a storage and a job. -/
def jobsOf (running : List (σ × β)) (storage : σ) : List β :=
  (running.filter (·.1 = storage)).map (·.2)

/-- The jobs of each storage ran in the order they were submitted, each once, at most one
more is running, and when `shut_down` has joined every worker those submitted before
`stop` have run. -/
structure Serial (d : DiskIo σ β) : Prop where
  order : ∀ storage,
    d.submitted storage = d.ran storage ++ jobsOf d.running storage ++ d.jobs storage
  single : ∀ storage, (jobsOf d.running storage).length ≤ 1
  joined : d.stopping = true → d.idle = 0 → d.running = [] →
    ∀ storage, d.atStop storage ≤ (d.ran storage).length

def view (d : DiskIo σ β) (storage : σ) : View β where
  submitted := d.submitted storage
  ran := d.ran storage
  running := jobsOf d.running storage
  jobs := d.jobs storage
  ready := d.ready.count storage
  scheduled := d.scheduled storage
  atStop := d.atStop storage

structure Sound (d : DiskIo σ β) : Prop where
  served : ∀ storage, (d.view storage).Served
  alive : d.stopping = false → 0 < d.idle + d.running.length
  joined : d.stopping = true → d.idle = 0 → d.running = [] →
    ∀ storage, d.atStop storage ≤ (d.ran storage).length

variable {d next : DiskIo σ β} {storage : σ} {job : β}

theorem jobsOf_cons (running : List (σ × β)) (other : σ) : jobsOf ((storage, job) :: running) other =
    if storage = other then job :: jobsOf running other else jobsOf running other := by
  unfold jobsOf
  by_cases heq : storage = other <;> simp [heq]

theorem Sound.serial (inv : d.Sound) : d.Serial where
  order storage := (inv.served storage).order
  single storage := (inv.served storage).single
  joined := inv.joined

theorem sound_start (threads : Nat) : (start threads : DiskIo σ β).Sound where
  served _ := ⟨rfl, rfl, nofun, fun _ => rfl, Nat.zero_le _⟩
  alive _ := by simp [start]
  joined := nofun

theorem Sound.enqueue (inv : d.Sound) : (d.enqueue storage job).Sound := by
  refine ⟨fun other => ?_, inv.alive, inv.joined⟩
  by_cases heq : other = storage
  · subst heq
    convert (inv.served other).enqueue job using 1
    cases hscheduled : d.scheduled other <;> simp [view, DiskIo.enqueue, hscheduled]
  · convert inv.served other using 1
    cases hscheduled : d.scheduled storage <;>
      simp [view, DiskIo.enqueue, heq, hscheduled, Ne.symm heq]

theorem Sound.take (inv : d.Sound) (h : d.take = some next) : next.Sound := by
  obtain ⟨hidle, h⟩ := guard_bind_eq_some h
  obtain ⟨storage, hstorage, h⟩ := Option.bind_eq_some_iff.1 h
  obtain ⟨job, hjob, h⟩ := Option.bind_eq_some_iff.1 h
  cases h
  obtain ⟨rest, hready⟩ := head?_eq_some_iff.1 hstorage
  obtain ⟨jobs, hjobs⟩ := head?_eq_some_iff.1 hjob
  refine ⟨fun other => ?_, fun _ => by simp, nofun⟩
  by_cases heq : other = storage
  · subst heq
    convert (inv.served other).take hjobs (by simp [view, hready]) using 1
    simp [view, jobsOf_cons, hready, hjobs]
  · convert inv.served other using 1
    simp [view, jobsOf_cons, hready, heq, Ne.symm heq]

variable [DecidableEq β]

theorem jobsOf_erase_of_ne (running : List (σ × β)) {other : σ} (hne : storage ≠ other) :
    jobsOf (running.erase (storage, job)) other = jobsOf running other := by
  unfold jobsOf
  rw [← erase_filter, erase_of_not_mem (by simp [hne])]

theorem jobsOf_erase_self {running : List (σ × β)} (hmem : (storage, job) ∈ running)
    (hsingle : (jobsOf running storage).length ≤ 1) :
    jobsOf running storage = [job] ∧ jobsOf (running.erase (storage, job)) storage = [] := by
  have hfound : (storage, job) ∈ running.filter (·.1 = storage) := by simp [hmem]
  have hall : running.filter (·.1 = storage) = [(storage, job)] := by
    unfold jobsOf at hsingle
    rw [length_map] at hsingle
    obtain ⟨only, honly⟩ := length_eq_one_iff.1
      (Nat.le_antisymm hsingle (length_pos_of_mem hfound))
    rw [honly, List.mem_singleton] at hfound
    rw [honly, hfound]
  unfold jobsOf
  rw [← erase_filter, hall]
  simp

theorem Sound.finish (inv : d.Sound) (hmem : (storage, job) ∈ d.running) :
    (d.finish storage job).Sound := by
  refine ⟨fun other => ?_, fun _ => by simp [DiskIo.finish], nofun⟩
  by_cases heq : other = storage
  · subst heq
    obtain ⟨hone, hnone⟩ := jobsOf_erase_self hmem (inv.served other).single
    convert (inv.served other).finish hone using 1
    cases hempty : (d.jobs other).isEmpty <;> simp [view, DiskIo.finish, hnone, hempty]
  · convert inv.served other using 1
    cases hempty : (d.jobs storage).isEmpty <;>
      simp [view, DiskIo.finish, heq, hempty, Ne.symm heq, jobsOf_erase_of_ne _ (Ne.symm heq)]

theorem Sound.step (inv : d.Sound) {event : DiskEvent σ β} (h : d.step event = some next) :
    next.Sound := by
  cases event with
  | enqueue storage job =>
    cases h
    exact inv.enqueue
  | take => exact inv.take h
  | finish storage job =>
    obtain ⟨hmem, h⟩ := guard_bind_eq_some h
    cases h
    exact inv.finish hmem
  | exit =>
    obtain ⟨⟨hidle, hstopping, hready⟩, h⟩ := guard_bind_eq_some h
    cases h
    refine ⟨inv.served, fun h => ?_, fun _ _ hrunning storage => ?_⟩
    · exact absurd hstopping (by simpa using h)
    · -- The last worker leaves an empty queue and no job, so that nothing is scheduled.
      have hrunning : d.running = [] := hrunning
      obtain ⟨horder, honce, -, hunscheduled, hbefore⟩ := inv.served storage
      simp only [view, hready, hrunning, jobsOf] at horder honce hunscheduled hbefore
      cases hscheduled : d.scheduled storage <;> simp_all
  | stop =>
    obtain ⟨hlive, h⟩ := guard_bind_eq_some h
    cases h
    refine ⟨fun storage => { inv.served storage with before := Nat.le_refl _ }, nofun,
      fun _ hidle hrunning => ?_⟩
    have halive := inv.alive hlive
    simp_all

end DiskIo

/-- For every number of workers and every schedule. -/
theorem disk_jobs_serial {σ β : Type} [DecidableEq σ] [DecidableEq β] {threads : Nat}
    {events : List (DiskEvent σ β)} {last : DiskIo σ β}
    (run : Run (Computes DiskIo.step) (DiskIo.start threads) events last) : last.Serial :=
  (run.invariant (P := fun _ => DiskIo.Sound) (DiskIo.sound_start threads)
    fun _ _ _ _ inv h => inv.step h).serial

namespace DiskIo

/-- Two workers serve two storages, and the job left at `stop` runs before they end. -/
def schedule : List (DiskEvent Nat Nat) :=
  [.enqueue 1 10, .enqueue 1 11, .take, .enqueue 2 20, .take, .stop, .finish 2 20, .exit,
    .finish 1 10, .take, .finish 1 11, .exit]

theorem schedule_serial : ∃ last : DiskIo Nat Nat,
    Run (Computes DiskIo.step) (start 2) schedule last ∧ last.ran 1 = [10, 11] ∧ last.idle = 0 ∧
      last.Serial := by
  have hruns : ((schedule.foldlM step (start 2)).any fun last =>
      decide (last.ran 1 = [10, 11] ∧ last.idle = 0)) = true := by decide +kernel
  obtain ⟨last, hlast, hdecide⟩ := (Option.any_eq_true _ _).1 hruns
  obtain ⟨hran, hidle⟩ := of_decide_eq_true hdecide
  have run := run_of_foldlM hlast
  exact ⟨last, run, hran, hidle, disk_jobs_serial run⟩

end DiskIo

end Macha
