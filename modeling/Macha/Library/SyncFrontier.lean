import Mathlib

/-!
# Generations and barriers

Writes are registered under increasing generations, and a barrier makes durable all
operations completed before it began. A barrier that began at a generation moves the
durable generation up to it. A write is covered by a generation if it is durable once
the generation is.
-/

namespace Macha

/-- Operations are counted by `clock`, and those before `synced` are durable. A
barrier in progress has the generation and the clock at which it began. -/
structure SyncFrontier where
  clock : Nat := 0
  synced : Nat := 0
  mutation : Nat := 0
  durable : Nat := 0
  barrier : Option (Nat × Nat) := none
deriving DecidableEq, Repr

namespace SyncFrontier

def advance (f : SyncFrontier) : SyncFrontier := { f with clock := f.clock + 1 }

def register (f : SyncFrontier) : SyncFrontier := { f with mutation := f.mutation + 1 }

def start (f : SyncFrontier) : SyncFrontier := { f with barrier := some (f.mutation, f.clock) }

def complete (f : SyncFrontier) : SyncFrontier :=
  match f.barrier with
  | some (cut, began) =>
    { f with
      durable := max f.durable cut
      synced := max f.synced began
      barrier := none }
  | none => f

def abandon (f : SyncFrontier) : SyncFrontier := { f with barrier := none }

/-- Generations begin anew; what is durable stays so. -/
def restart (f : SyncFrontier) : SyncFrontier := { clock := f.clock, synced := f.synced }

structure Sound (f : SyncFrontier) : Prop where
  durable : f.durable ≤ f.mutation
  cut : ∀ cut began, f.barrier = some (cut, began) → cut ≤ f.mutation

/-- The operation is durable, or will be once the generation is. -/
def Covers (f : SyncFrontier) (generation stamp : Nat) : Prop :=
  stamp < f.synced ∨ f.durable < generation ∧ generation ≤ f.mutation ∧ stamp < f.clock ∧
      ∀ cut began, f.barrier = some (cut, began) → generation ≤ cut → stamp < began

theorem Covers.durable {f : SyncFrontier} {generation stamp : Nat}
    (h : f.Covers generation stamp) (hdurable : generation ≤ f.durable) : stamp < f.synced := by
  rcases h with h | ⟨hlt, -⟩
  · exact h
  · omega

structure Later (f g : SyncFrontier) : Prop where
  clock : f.clock ≤ g.clock
  covers : ∀ generation stamp, f.Covers generation stamp → g.Covers generation stamp

theorem Later.refl (f : SyncFrontier) : Later f f := ⟨Nat.le_refl _, fun _ _ h => h⟩

theorem Later.trans {f g h : SyncFrontier} (hfg : Later f g) (hgh : Later g h) : Later f h :=
  ⟨Nat.le_trans hfg.clock hgh.clock, fun generation stamp hc =>
    hgh.covers generation stamp (hfg.covers generation stamp hc)⟩

variable {f : SyncFrontier}

theorem later_advance (f : SyncFrontier) : Later f f.advance := by
  refine ⟨Nat.le_succ _, fun generation stamp h => ?_⟩
  rcases h with h | ⟨hdurable, hmutation, hclock, hbarrier⟩
  · exact .inl h
  · exact .inr ⟨hdurable, hmutation, Nat.lt_succ_of_lt hclock, hbarrier⟩

theorem later_register (f : SyncFrontier) : Later f f.register := by
  refine ⟨Nat.le_refl _, fun generation stamp h => ?_⟩
  rcases h with h | ⟨hdurable, hmutation, hclock, hbarrier⟩
  · exact .inl h
  · exact .inr ⟨hdurable, Nat.le_succ_of_le hmutation, hclock, hbarrier⟩

theorem later_start (f : SyncFrontier) : Later f f.start := by
  refine ⟨Nat.le_refl _, fun generation stamp h => ?_⟩
  rcases h with h | ⟨hdurable, hmutation, hclock, -⟩
  · exact .inl h
  · refine .inr ⟨hdurable, hmutation, hclock, fun cut began hbegan _ => ?_⟩
    cases hbegan
    exact hclock

theorem later_complete (f : SyncFrontier) : Later f f.complete := by
  unfold complete
  cases hbarrier : f.barrier with
  | none => exact .refl f
  | some began =>
    obtain ⟨cut, began⟩ := began
    refine ⟨Nat.le_refl _, fun generation stamp h => ?_⟩
    rcases h with h | ⟨hdurable, hmutation, hclock, hcut⟩
    · exact .inl (Nat.lt_of_lt_of_le h (Nat.le_max_left _ _))
    · by_cases hgeneration : generation ≤ cut
      · have hbegan := hcut cut began hbarrier hgeneration
        exact .inl (Nat.lt_of_lt_of_le hbegan (Nat.le_max_right _ _))
      · refine .inr ⟨?_, hmutation, hclock, nofun⟩
        show max f.durable cut < generation
        omega

theorem later_abandon (f : SyncFrontier) : Later f f.abandon := by
  refine ⟨Nat.le_refl _, fun generation stamp h => ?_⟩
  rcases h with h | ⟨hdurable, hmutation, hclock, -⟩
  · exact .inl h
  · exact .inr ⟨hdurable, hmutation, hclock, nofun⟩

section

variable (sound : f.Sound)

include sound

theorem Sound.covers_register {stamp : Nat} (h : stamp < f.clock) :
    f.register.Covers (f.mutation + 1) stamp := by
  refine .inr ⟨?_, Nat.le_refl _, h, fun cut began hbegan hcut => ?_⟩
  · exact Nat.lt_succ_of_le sound.durable
  · have hle := sound.cut cut began hbegan
    omega

theorem Sound.advance : f.advance.Sound := ⟨sound.durable, sound.cut⟩

theorem Sound.register : f.register.Sound :=
  ⟨Nat.le_succ_of_le sound.durable, fun cut began h => Nat.le_succ_of_le (sound.cut cut began h)⟩

theorem Sound.start : f.start.Sound := by
  refine ⟨sound.durable, fun cut began h => ?_⟩
  cases h
  exact Nat.le_refl _

theorem Sound.complete : f.complete.Sound := by
  unfold SyncFrontier.complete
  cases hbarrier : f.barrier with
  | none => exact sound
  | some began =>
    obtain ⟨cut, began⟩ := began
    have hcut := sound.cut cut began hbarrier
    have hdurable := sound.durable
    refine ⟨?_, nofun⟩
    show max f.durable cut ≤ f.mutation
    omega

theorem Sound.abandon : f.abandon.Sound := ⟨sound.durable, nofun⟩

end

theorem sound_restart (f : SyncFrontier) : f.restart.Sound := ⟨Nat.le_refl _, nofun⟩

end SyncFrontier

end Macha
