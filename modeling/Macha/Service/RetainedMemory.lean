import Macha.Library.Run
import Macha.Library.Collect

/-!
# Memory retained across an asynchronous boundary

The ledger admits a lease where its class has room: a control request anywhere, a viewer
outside the control reserve, and the lower classes within budgets of their own, from which
reclaimable leases and frames being reassembled are exempt. Statistics and the requests to
shed are left out, since a lease that is shed is a lease released, and so are calls that
are cancelled before they look.
-/

namespace Macha

inductive WorkClass
  | control
  | viewer
  | loader
  | speculative
deriving DecidableEq

inductive MemoryOwner
  | fuseRequest
  | fuseOperation
  | publication
  | rpcFrame
  | objectPayload
  | durability
  | metadata
  | catalogue
  | mediaProfile
  | playbackSegment
  | cache
deriving DecidableEq

/-- What the ledger is constructed with. -/
structure MemoryReserves where
  capacity : Nat
  control : Nat
  viewer : Nat
  loader : Nat
  reassembly : Nat
  positive : 0 < capacity ∧ 0 < control ∧ 0 < viewer ∧ 0 < loader ∧ 0 < reassembly
  fits : control ≤ capacity ∧ viewer ≤ capacity - control ∧ loader ≤ capacity - control - viewer

def MemoryReserves.absoluteClassCapacity (reserves : MemoryReserves) (memoryClass : WorkClass) : Nat :=
  if memoryClass = .control then reserves.capacity else reserves.capacity - reserves.control

/-- A request, and the allocation it becomes. -/
structure MemoryRequest where
  memoryClass : WorkClass
  owner : MemoryOwner
  requested : Nat
  reclaimable : Bool
deriving DecidableEq

namespace MemoryRequest

def charge (r : MemoryRequest) : Nat := max 1 r.requested

def lowerDurable (r : MemoryRequest) : Bool :=
  !r.reclaimable && (r.memoryClass = .loader || r.memoryClass = .speculative)

def speculativeDurable (r : MemoryRequest) : Bool :=
  !r.reclaimable && r.memoryClass = .speculative

def sharesViewer (r : MemoryRequest) : Bool :=
  r.memoryClass = .control || r.memoryClass = .viewer || r.reclaimable || r.owner = .rpcFrame

end MemoryRequest

structure RetainedMemory where
  allocations : List (Nat × MemoryRequest) := []
  nextId : Nat := 1
  used : Nat := 0
  reclaimable : Nat := 0
  lowerDurable : Nat := 0
  speculativeDurable : Nat := 0
  ownerBytes : MemoryOwner → Nat := fun _ => 0
  /-- The calls of `acquire` that wait. -/
  waiting : List MemoryRequest := []

inductive MemoryEvent
  | acquire (r : MemoryRequest)
  | tryAcquire (r : MemoryRequest)
  | retry (r : MemoryRequest)
  | giveUp (r : MemoryRequest)
  | release (id : Nat)

/-- The bytes of the live leases with a property. -/
def leased (p : MemoryRequest → Bool) (leases : List (Nat × MemoryRequest)) : Nat :=
  (leases.map fun lease => if p lease.2 then lease.2.charge else 0).sum

namespace RetainedMemory

def waiters (m : RetainedMemory) (memoryClass : WorkClass) : Nat :=
  m.waiting.countP (·.memoryClass = memoryClass)

def available (reserves : MemoryReserves) (m : RetainedMemory) (r : MemoryRequest) : Bool :=
  let nonControl := reserves.capacity - reserves.control
  let durableLower := nonControl - reserves.viewer
  if reserves.capacity < m.used + r.charge then false
  else if r.memoryClass = .control then true
  else if nonControl < m.used + r.charge then false
  else if r.memoryClass = .viewer then true
  else if 0 < m.waiters .control ∨ 0 < m.waiters .viewer then false
  else if r.owner = .rpcFrame ∧ m.ownerBytes .rpcFrame + r.charge ≤ reserves.reassembly then true
  else if r.memoryClass = .speculative ∧ 0 < m.waiters .loader then false
  else if r.reclaimable then true
  else if r.owner = .rpcFrame then true
  else if durableLower < m.lowerDurable + r.charge then false
  else if r.memoryClass = .loader then true
  else m.speculativeDurable + r.charge ≤ durableLower - reserves.loader

/-- The counters a lease enters, each changed by `f`. -/
def account (m : RetainedMemory) (r : MemoryRequest) (f : Nat → Nat) : RetainedMemory :=
  { m with
    used := f m.used
    ownerBytes := Function.update m.ownerBytes r.owner (f (m.ownerBytes r.owner))
    reclaimable := if r.reclaimable then f m.reclaimable else m.reclaimable
    lowerDurable := if r.lowerDurable then f m.lowerDurable else m.lowerDurable
    speculativeDurable :=
      if r.speculativeDurable then f m.speculativeDurable else m.speculativeDurable }

def admitted (m : RetainedMemory) (r : MemoryRequest) : RetainedMemory :=
  { m.account r (· + r.charge) with
    allocations := m.allocations ++ [(m.nextId, r)]
    nextId := m.nextId + 1 }

def release (m : RetainedMemory) (id : Nat) : RetainedMemory :=
  match m.allocations.find? (·.1 = id) with
  | none => m
  | some (_, r) =>
    { m.account r (· - r.charge) with allocations := m.allocations.eraseP (·.1 = id) }

def tryAcquire (reserves : MemoryReserves) (m : RetainedMemory) (r : MemoryRequest) :
    RetainedMemory :=
  if m.available reserves r then m.admitted r else m

/-- Until it waits; above the capacity of its class a call returns without a lease. -/
def acquire (reserves : MemoryReserves) (m : RetainedMemory) (r : MemoryRequest) : RetainedMemory :=
  if reserves.absoluteClassCapacity r.memoryClass < r.charge then m
  else if m.available reserves r then m.admitted r
  else { m with waiting := r :: m.waiting }

def step (reserves : MemoryReserves) (m : RetainedMemory) : MemoryEvent → Option RetainedMemory
  | .acquire r => some (m.acquire reserves r)
  | .tryAcquire r => some (m.tryAcquire reserves r)
  | .retry r => do
    guard (r ∈ m.waiting ∧ m.available reserves r)
    some ({ m with waiting := m.waiting.erase r }.admitted r)
  | .giveUp r => do
    guard (r ∈ m.waiting)
    some { m with waiting := m.waiting.erase r }
  | .release id => some (m.release id)

/-- A call for the request gets its lease without waiting. -/
def AtOnce (reserves : MemoryReserves) (m : RetainedMemory) (r : MemoryRequest) : Prop :=
  m.acquire reserves r = m.admitted r ∧ m.tryAcquire reserves r = m.admitted r

/-- The counters are the sums over the live leases. -/
structure Counted (m : RetainedMemory) : Prop where
  used : m.used = leased (fun _ => true) m.allocations
  owner : ∀ owner, m.ownerBytes owner = leased (·.owner = owner) m.allocations
  reclaimable : m.reclaimable = leased (·.reclaimable) m.allocations
  lower : m.lowerDurable = leased (·.lowerDurable) m.allocations
  speculative : m.speculativeDurable = leased (·.speculativeDurable) m.allocations

structure Headroom (reserves : MemoryReserves) (m : RetainedMemory) : Prop extends Counted m where
  capacity : m.used ≤ reserves.capacity
  control : ∀ r : MemoryRequest, r.memoryClass = .control →
    leased (·.memoryClass = .control) m.allocations + r.charge ≤ reserves.control →
      m.AtOnce reserves r
  viewer : ∀ r : MemoryRequest, r.memoryClass = .viewer →
    leased (·.sharesViewer) m.allocations + r.charge ≤ reserves.viewer → m.AtOnce reserves r

/-- What is not control leaves the control reserve, and what may not share the viewer
reserve leaves that. -/
structure Sound (reserves : MemoryReserves) (m : RetainedMemory) : Prop extends Counted m where
  capacity : m.used ≤ reserves.capacity
  control : leased (fun r => !(r.memoryClass = .control)) m.allocations ≤
    reserves.capacity - reserves.control
  viewer : leased (!·.sharesViewer) m.allocations ≤
    reserves.capacity - reserves.control - reserves.viewer

variable {reserves : MemoryReserves} {m next : RetainedMemory} {r : MemoryRequest}
  {p q : MemoryRequest → Bool} {leases : List (Nat × MemoryRequest)} {id : Nat}

theorem leased_append : leased p (leases ++ [(id, r)]) =
    if p r then leased p leases + r.charge else leased p leases := by
  unfold leased
  split <;> simp_all

theorem leased_le (himp : ∀ r, p r = true → q r = true) : leased p leases ≤ leased q leases := by
  refine List.sum_le_sum fun lease _ => ?_
  by_cases hp : p lease.2 = true
  · simp [hp, himp _ hp]
  · simp [hp]

theorem leased_split (p : MemoryRequest → Bool) (leases : List (Nat × MemoryRequest)) :
    leased (fun _ => true) leases = leased p leases + leased (!p ·) leases := by
  unfold leased
  rw [← List.sum_map_add]
  congr 2
  funext lease
  cases h : p lease.2 <;> simp [h]

theorem leased_eraseP {lease : Nat × MemoryRequest} (h : leases.find? (·.1 = id) = some lease) :
    leased p leases =
      leased p (leases.eraseP (·.1 = id)) + if p lease.2 then lease.2.charge else 0 := by
  induction leases with
  | nil => cases h
  | cons first leases ih =>
    unfold leased at ih ⊢
    by_cases hid : first.1 = id
    · simp_all [Nat.add_comm]
    · simp_all [Nat.add_assoc]

theorem Counted.account (inv : m.Counted) {f : Nat → Nat}
    (hleased : ∀ p, leased p leases = if p r then f (leased p m.allocations) else leased p m.allocations) :
    ({ m.account r f with allocations := leases, nextId := id } : RetainedMemory).Counted where
  used := by simp [RetainedMemory.account, hleased, inv.used]
  owner owner := by
    by_cases heq : owner = r.owner
    · simp [RetainedMemory.account, hleased, inv.owner, heq]
    · simp [RetainedMemory.account, hleased, inv.owner, heq, Ne.symm heq]
  reclaimable := by simp [RetainedMemory.account, hleased, inv.reclaimable]
  lower := by simp [RetainedMemory.account, hleased, inv.lower]
  speculative := by simp [RetainedMemory.account, hleased, inv.speculative]

theorem available_bounds (h : m.available reserves r = true) :
    m.used + r.charge ≤ reserves.capacity ∧
    (r.memoryClass ≠ .control → m.used + r.charge ≤ reserves.capacity - reserves.control) ∧
    (r.sharesViewer = false →
      m.lowerDurable + r.charge ≤ reserves.capacity - reserves.control - reserves.viewer) := by
  unfold available at h
  unfold MemoryRequest.sharesViewer
  grind

theorem Sound.admitted (inv : m.Sound reserves) (h : m.available reserves r = true) :
    (m.admitted r).Sound reserves := by
  obtain ⟨hcapacity, hcontrol, hviewer⟩ := available_bounds h
  refine ⟨inv.toCounted.account fun p => leased_append, hcapacity, ?_, ?_⟩
  · have hle : leased (fun r => !(r.memoryClass = .control)) m.allocations ≤ m.used :=
      inv.used ▸ leased_le fun _ _ => rfl
    have := inv.control
    simp only [RetainedMemory.admitted, leased_append]
    split
    · have := hcontrol (by simp_all)
      omega
    · assumption
  · have hle : leased (!·.sharesViewer) m.allocations ≤ m.lowerDurable := by
      rw [inv.lower]
      refine leased_le fun r hr => ?_
      unfold MemoryRequest.lowerDurable
      cases hclass : r.memoryClass <;> simp_all [MemoryRequest.sharesViewer]
    have := inv.viewer
    simp only [RetainedMemory.admitted, leased_append]
    split
    · have := hviewer (by simp_all)
      omega
    · assumption

theorem Sound.release (inv : m.Sound reserves) : (m.release id).Sound reserves := by
  unfold RetainedMemory.release
  split
  · exact inv
  · next _ r hfound =>
    have hfewer p : leased p (m.allocations.eraseP (·.1 = id)) ≤ leased p m.allocations :=
      Nat.le.intro (leased_eraseP hfound).symm
    refine ⟨inv.toCounted.account fun p => ?_, Nat.le_trans (Nat.sub_le _ _) inv.capacity,
      Nat.le_trans (hfewer _) inv.control, Nat.le_trans (hfewer _) inv.viewer⟩
    rw [leased_eraseP (p := p) hfound]
    split <;> simp

theorem Sound.step (inv : m.Sound reserves) {event : MemoryEvent}
    (h : m.step reserves event = some next) : next.Sound reserves := by
  cases event with
  | acquire r =>
    cases h
    unfold RetainedMemory.acquire
    split
    · exact inv
    · split
      · exact inv.admitted ‹_›
      · exact { inv with }
  | tryAcquire r =>
    cases h
    unfold RetainedMemory.tryAcquire
    split
    · exact inv.admitted ‹_›
    · exact inv
  | retry r =>
    obtain ⟨⟨_, havailable⟩, h⟩ := guard_bind_eq_some h
    cases h
    exact { inv.admitted havailable with }
  | giveUp r =>
    obtain ⟨_, h⟩ := guard_bind_eq_some h
    cases h
    exact { inv with }
  | release id =>
    cases h
    exact inv.release

theorem atOnce_of_available (h : m.available reserves r = true) : m.AtOnce reserves r := by
  obtain ⟨hcapacity, hcontrol, _⟩ := available_bounds h
  refine ⟨?_, if_pos h⟩
  unfold acquire
  rw [if_neg, if_pos h]
  unfold MemoryReserves.absoluteClassCapacity
  split
  · omega
  · have := hcontrol ‹_›
    omega

theorem Sound.headroom (inv : m.Sound reserves) : m.Headroom reserves := by
  obtain ⟨hcontrol, hviewer, _⟩ := reserves.fits
  refine ⟨inv.toCounted, inv.capacity, fun r hclass hfits => ?_, fun r hclass hfits => ?_⟩
  · have hsplit := leased_split (·.memoryClass = .control) m.allocations
    have := inv.used
    have := inv.control
    refine atOnce_of_available ?_
    unfold available
    rw [if_neg (by omega), if_pos hclass]
  · have hsplit := leased_split (·.sharesViewer) m.allocations
    have := inv.used
    have := inv.viewer
    refine atOnce_of_available ?_
    unfold available
    rw [if_neg (by omega), if_neg (by simp [hclass]), if_neg (by omega), if_pos hclass]

end RetainedMemory

/-- For every ledger and every sequence of calls. -/
theorem protected_headroom {reserves : MemoryReserves} {events : List MemoryEvent}
    {last : RetainedMemory} (run : Run (Computes (RetainedMemory.step reserves)) {} events last) :
    last.Headroom reserves :=
  (run.invariant (P := fun _ => RetainedMemory.Sound reserves)
    { used := rfl, owner := fun _ => rfl, reclaimable := rfl, lower := rfl, speculative := rfl,
      capacity := Nat.zero_le _, control := Nat.zero_le _, viewer := Nat.zero_le _ }
    fun _ _ _ _ inv h => inv.step h).headroom

namespace RetainedMemory

def smallReserves : MemoryReserves := ⟨10, 2, 3, 2, 1, by decide, by decide⟩

/-- A loader waits outside the viewer reserve, which a viewer then gets at once. -/
theorem viewer_past_waiting_loader : ∃ last, Run (Computes (step smallReserves)) {}
      [.acquire ⟨.loader, .publication, 5, false⟩, .acquire ⟨.loader, .publication, 1, false⟩] last ∧
    last.waiters .loader = 1 ∧ last.AtOnce smallReserves ⟨.viewer, .fuseRequest, 3, false⟩ := by
  have run : Run (Computes (step smallReserves)) {}
    [.acquire ⟨.loader, .publication, 5, false⟩, .acquire ⟨.loader, .publication, 1, false⟩] _ :=
    run_of_foldlM rfl
  exact ⟨_, run, rfl, (protected_headroom run).viewer _ rfl (by decide)⟩

end RetainedMemory

end Macha
