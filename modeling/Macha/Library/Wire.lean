import Mathlib

/-!
# Wire formats

Numbers of a fixed width with the highest byte first, blobs with their length
before them, and readers that take a value off the front of the bytes. A reader
reads a text when it takes exactly that text off, whatever follows, so that texts
written one after another are read one after another.
-/

namespace Macha

open List

def writeUint : Nat → Nat → List Nat
  | 0, _ => []
  | width + 1, n => (n / 256 ^ width % 256) :: writeUint width n

def uintOf (bytes : List Nat) : Nat :=
  bytes.foldl (fun value byte => value * 256 + byte) 0

@[simp] theorem length_writeUint (width n : Nat) : (writeUint width n).length = width := by
  induction width with
  | zero => rfl
  | succ width ih => rw [writeUint, length_cons, ih]

theorem foldl_writeUint (width n start : Nat) :
    (writeUint width n).foldl (fun value byte => value * 256 + byte) start =
      start * 256 ^ width + n % 256 ^ width := by
  induction width generalizing start with
  | zero =>
    show start = start * 1 + n % 1
    omega
  | succ width ih =>
    rw [writeUint, foldl_cons, ih, Nat.pow_succ, Nat.mod_mul, Nat.add_mul]
    ring

theorem uintOf_writeUint {width n : Nat} (h : n < 256 ^ width) :
    uintOf (writeUint width n) = n := by
  unfold uintOf
  rw [foldl_writeUint, Nat.zero_mul, Nat.zero_add, Nat.mod_eq_of_lt h]

/-- Takes a value off the front of the bytes, or fails. -/
abbrev Reader := StateT (List Nat) Option

namespace Reader

def fixed (count : Nat) : Reader (List Nat) := fun bytes =>
  if count ≤ bytes.length then some (bytes.take count, bytes.drop count) else none

def uint (width : Nat) : Reader Nat := do
  let bytes ← fixed width
  pure (uintOf bytes)

def check (p : Prop) [Decidable p] : Reader Unit := fun bytes =>
  if p then some ((), bytes) else none

/-- A blob and the length before it, which is limited. -/
def blob (limit : Nat) : Reader (List Nat) := do
  let count ← uint 4
  check (count ≤ limit)
  fixed count

def many {α : Type} (r : Reader α) : Nat → Reader (List α)
  | 0 => pure []
  | count + 1 => do
    let value ← r
    let values ← r.many count
    pure (value :: values)

def whole {α : Type} (r : Reader α) (bytes : List Nat) : Option α := do
  let (value, rest) ← r.run bytes
  guard (rest = [])
  some value

end Reader

def writeBlob (bytes : List Nat) : List Nat := writeUint 4 bytes.length ++ bytes

@[simp] theorem length_writeBlob (bytes : List Nat) :
    (writeBlob bytes).length = 4 + bytes.length := by
  unfold writeBlob
  rw [length_append, length_writeUint]

/-- The reader takes this text off, and returns this value. -/
def Reads {α : Type} (r : Reader α) (text : List Nat) (value : α) : Prop :=
  ∀ rest, r.run (text ++ rest) = some (value, rest)

namespace Reads

variable {α β : Type} {text more : List Nat}

theorem pure (value : α) : Reads (Pure.pure value) [] value := fun _ => rfl

variable {value : α} {r : Reader α}

theorem bind {f : α → Reader β} {last : β} (h : Reads r text value)
    (hf : Reads (f value) more last) : Reads (r >>= f) (text ++ more) last := by
  intro rest
  rw [StateT.run_bind, append_assoc, h, Option.bind_eq_bind, Option.bind_some]
  exact hf rest

theorem map (h : Reads r text value) (f : α → β) :
    Reads (do let v ← r; Pure.pure (f v)) text (f value) := by
  have hmap := h.bind (f := fun v => Pure.pure (f v)) (Reads.pure (f value))
  rwa [append_nil] at hmap

theorem check {p : Prop} [Decidable p] (h : p) : Reads (Reader.check p) [] () :=
  fun _ => if_pos h

theorem check_bind {p : Prop} [Decidable p] (h : p) {f : Unit → Reader β} {last : β}
    (hf : Reads (f ()) text last) : Reads (Reader.check p >>= f) text last :=
  (Reads.check h).bind hf

theorem fixed {count : Nat} (h : text.length = count) : Reads (Reader.fixed count) text text := by
  intro rest
  show (if count ≤ (text ++ rest).length then _ else _) = _
  rw [if_pos (by rw [length_append]; omega), ← h, take_left, drop_left]

theorem uint {width n : Nat} (h : n < 256 ^ width) :
    Reads (Reader.uint width) (writeUint width n) n := by
  have hread := (Reads.fixed (length_writeUint width n)).map uintOf
  rwa [uintOf_writeUint h] at hread

theorem blob {limit : Nat} (hlimit : text.length ≤ limit) (hu32 : text.length < 256 ^ 4) :
    Reads (Reader.blob limit) (writeBlob text) text :=
  (Reads.uint hu32).bind (Reads.check_bind hlimit (Reads.fixed rfl))

theorem whole (h : Reads r text value) : r.whole text = some value := by
  have hrun := h []
  rw [append_nil] at hrun
  unfold Reader.whole
  rw [hrun]
  rfl

end Reads

def Rejects {α : Type} (r : Reader α) (text : List Nat) : Prop :=
  ∀ rest, r.run (text ++ rest) = none

namespace Rejects

variable {α β : Type} {text more : List Nat} {r : Reader α}

theorem bind {f : α → Reader β} {value : α} (h : Reads r text value) (hf : Rejects (f value) more) :
    Rejects (r >>= f) (text ++ more) := by
  intro rest
  rw [StateT.run_bind, append_assoc, h, Option.bind_eq_bind, Option.bind_some]
  exact hf rest

theorem bind_left (h : Rejects r text) (f : α → Reader β) : Rejects (r >>= f) text := by
  intro rest
  rw [StateT.run_bind, h]
  rfl

theorem append (h : Rejects r text) (more : List Nat) : Rejects r (text ++ more) := by
  intro rest
  rw [append_assoc]
  exact h (more ++ rest)

theorem check {p : Prop} [Decidable p] (h : ¬ p) : Rejects (Reader.check p) text :=
  fun _ => if_neg h

theorem blob {limit : Nat} (hlimit : limit < text.length) (hu32 : text.length < 256 ^ 4) :
    Rejects (Reader.blob limit) (writeBlob text) :=
  bind (Reads.uint hu32) (bind_left (check (Nat.not_le_of_lt hlimit)) _)

theorem whole (h : Rejects r text) : r.whole text = none := by
  have hrun := h []
  rw [append_nil] at hrun
  unfold Reader.whole
  rw [hrun]
  rfl

end Rejects

/-- The reader takes this text off when the condition holds, and fails on it otherwise. -/
structure ReadsWhen {α : Type} (p : Prop) (r : Reader α) (text : List Nat) (value : α) : Prop where
  reads : p → Reads r text value
  rejects : ¬ p → Rejects r text

theorem Reads.always {α : Type} {r : Reader α} {text : List Nat} {value : α}
    (h : Reads r text value) : ReadsWhen True r text value :=
  ⟨fun _ => h, fun hnot => absurd trivial hnot⟩

namespace ReadsWhen

variable {α β : Type} {text more : List Nat} {p q : Prop} {r : Reader α} {value : α}

theorem congr (h : ReadsWhen p r text value) (hpq : p ↔ q) : ReadsWhen q r text value :=
  ⟨fun hq => h.reads (hpq.2 hq), fun hq => h.rejects fun hp => hq (hpq.1 hp)⟩

theorem bind {f : α → Reader β} {last : β} (h : ReadsWhen p r text value)
    (hf : p → ReadsWhen q (f value) more last) :
    ReadsWhen (p ∧ q) (r >>= f) (text ++ more) last := by
  constructor
  · rintro ⟨hp, hq⟩
    exact (h.reads hp).bind ((hf hp).reads hq)
  · intro hnot
    by_cases hp : p
    · exact Rejects.bind (h.reads hp) ((hf hp).rejects fun hq => hnot ⟨hp, hq⟩)
    · exact (Rejects.bind_left (h.rejects hp) f).append more

theorem bind_reads {f : α → Reader β} {last : β} (h : ReadsWhen p r text value)
    (hf : Reads (f value) more last) :
    ReadsWhen p (r >>= f) (text ++ more) last :=
  (h.bind fun _ => hf.always).congr (and_iff_left trivial)

theorem many {write : α → List Nat} {values : List α} {p : α → Prop}
    (h : ∀ value ∈ values, ReadsWhen (p value) r (write value) value) :
    ReadsWhen (∀ value ∈ values, p value) (r.many values.length) (values.flatMap write) values := by
  induction values with
  | nil => exact (Reads.pure []).always.congr (by simp)
  | cons value values ih =>
    have hrest := ih fun v hv => h v (mem_cons_of_mem _ hv)
    rw [flatMap_cons, ← append_nil (values.flatMap write)]
    refine ((h value mem_cons_self).bind fun _ =>
      hrest.bind_reads (Reads.pure (value :: values))).congr ?_
    exact forall_mem_cons.symm

end ReadsWhen

theorem Reads.many {α : Type} {r : Reader α} {write : α → List Nat} {values : List α}
    (h : ∀ value ∈ values, Reads r (write value) value) :
    Reads (r.many values.length) (values.flatMap write) values :=
  (ReadsWhen.many fun value hv => (h value hv).always).reads fun _ _ => trivial

/-- For this text the reader returns this value or fails. -/
def ReadsOrRejects {α : Type} (r : Reader α) (text : List Nat) (value : α) : Prop :=
  Reads r text value ∨ Rejects r text

namespace ReadsOrRejects

variable {α β : Type} {text more : List Nat} {r : Reader α}

theorem bind {f : α → Reader β} {value : α} {last : β} (h : ReadsOrRejects r text value)
    (hf : ReadsOrRejects (f value) more last) :
    ReadsOrRejects (r >>= f) (text ++ more) last := by
  rcases h with hreads | hrejects
  · rcases hf with hf | hf
    · exact .inl (hreads.bind hf)
    · exact .inr (Rejects.bind hreads hf)
  · exact .inr ((Rejects.bind_left hrejects f).append more)

theorem check_bind {p : Prop} [Decidable p] {f : Unit → Reader β} {last : β}
    (hf : p → ReadsOrRejects (f ()) text last) :
    ReadsOrRejects (Reader.check p >>= f) text last := by
  by_cases h : p
  · exact bind (.inl (Reads.check h)) (hf h)
  · exact .inr (Rejects.bind_left (Rejects.check h) f)

theorem blob {limit : Nat} (hu32 : text.length < 256 ^ 4) :
    ReadsOrRejects (Reader.blob limit) (writeBlob text) text := by
  by_cases hlimit : text.length ≤ limit
  · exact .inl (Reads.blob hlimit hu32)
  · exact .inr (Rejects.blob (Nat.lt_of_not_le hlimit) hu32)

theorem many {write : α → List Nat} {values : List α}
    (h : ∀ value ∈ values, ReadsOrRejects r (write value) value) :
    ReadsOrRejects (r.many values.length) (values.flatMap write) values := by
  induction values with
  | nil => exact .inl (Reads.pure [])
  | cons value values ih =>
    have hrest := ih fun v hv => h v (mem_cons_of_mem _ hv)
    rw [flatMap_cons, ← append_nil (values.flatMap write)]
    exact (h value mem_cons_self).bind (hrest.bind (.inl (Reads.pure (value :: values))))

theorem whole {value read : α} (h : ReadsOrRejects r text value)
    (hread : r.whole text = some read) : read = value := by
  rcases h with h | h
  · rw [h.whole] at hread
    exact (Option.some_inj.1 hread).symm
  · rw [h.whole] at hread
    cases hread

end ReadsOrRejects

end Macha
