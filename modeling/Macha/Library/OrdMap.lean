import Mathlib

/-!
# Ordered maps

`std::map` is the extensional tree map of the standard library over a linear
order. Its lookup lemmas speak of `compare`; the ones below speak of equality,
which is what every later proof has in hand.
-/

namespace Macha

open List

/-- A finite map iterated in the order of its keys. -/
abbrev OrdMap (κ ν : Type) [LinearOrder κ] := Std.ExtTreeMap κ ν compare

namespace OrdMap

variable {κ ν : Type} [LinearOrder κ]

instance transCmp : Std.TransCmp (compare : κ → κ → Ordering) := inferInstance

instance [DecidableEq ν] : DecidableEq (OrdMap κ ν) := fun _ _ =>
  Std.ExtTreeMap.instDecidableEqOfLawfulEqCmpOfTransCmpOfLawfulBEq _ _

theorem getElem?_insert (m : OrdMap κ ν) (k a : κ) (v : ν) :
    (m.insert k v)[a]? = if k = a then some v else m[a]? := by
  rw [Std.ExtTreeMap.getElem?_insert]
  simp

theorem getElem?_insert_self (m : OrdMap κ ν) (k : κ) (v : ν) : (m.insert k v)[k]? = some v := by
  rw [getElem?_insert, if_pos rfl]

variable {k a : κ}

theorem elim_empty {v : ν} {p : Prop} (h : (∅ : OrdMap κ ν)[k]? = some v) : p := by
  cases h

section

variable (m : OrdMap κ ν)

theorem getElem?_insert_of_ne (v : ν) (h : k ≠ a) : (m.insert k v)[a]? = m[a]? := by
  rw [getElem?_insert, if_neg h]

theorem getElem?_erase (k a : κ) : (m.erase k)[a]? = if k = a then none else m[a]? := by
  rw [Std.ExtTreeMap.getElem?_erase]
  simp

theorem getElem?_erase_of_ne (h : k ≠ a) : (m.erase k)[a]? = m[a]? := by
  rw [getElem?_erase, if_neg h]

theorem getElem?_insert_eq_some {m : OrdMap κ ν} {v w : ν} (h : (m.insert k v)[a]? = some w) :
    k = a ∧ v = w ∨ k ≠ a ∧ m[a]? = some w := by
  rw [getElem?_insert] at h
  split at h
  · next heq => exact .inl ⟨heq, Option.some_inj.1 h⟩
  · next hne => exact .inr ⟨hne, h⟩

theorem getElem?_erase_eq_some {m : OrdMap κ ν} {w : ν} (h : (m.erase k)[a]? = some w) :
    k ≠ a ∧ m[a]? = some w := by
  rw [getElem?_erase] at h
  split at h
  · cases h
  · next hne => exact ⟨hne, h⟩

theorem getElem?_insertIfNew (k a : κ) (v : ν) :
    (m.insertIfNew k v)[a]? = if k = a ∧ m[a]? = none then some v else m[a]? := by
  rw [Std.ExtTreeMap.getElem?_insertIfNew]
  by_cases h : k = a
  · subst h
    simp
  · simp [h]

theorem getElem?_filter (f : κ → ν → Bool) (k : κ) : (m.filter f)[k]? = m[k]?.filter (f k) :=
  Std.ExtTreeMap.getElem?_filter'

theorem getElem?_map {μ : Type} (f : κ → ν → μ) (k : κ) : (m.map f)[k]? = m[k]?.map (f k) :=
  Std.ExtTreeMap.getElem?_map

theorem contains_iff (k : κ) : m.contains k ↔ m[k]?.isSome := by
  rw [Std.ExtTreeMap.contains_eq_isSome_getElem?]

theorem ext {m n : OrdMap κ ν} (h : ∀ k : κ, m[k]? = n[k]?) : m = n :=
  Std.ExtTreeMap.ext_getElem? h

theorem mem_toList (k : κ) (v : ν) : (k, v) ∈ m.toList ↔ m[k]? = some v :=
  Std.ExtTreeMap.mem_toList_iff_getElem?_eq_some

theorem mem_keys (k : κ) : k ∈ m.keys ↔ m[k]?.isSome := by
  rw [Std.ExtTreeMap.mem_keys, Std.ExtTreeMap.mem_iff_isSome_getElem?]

theorem toList_pairwise_ne : m.toList.Pairwise fun x y => x.1 ≠ y.1 :=
  Std.ExtTreeMap.distinct_keys_toList.imp fun h => by simpa using h

theorem toList_nodup : m.toList.Nodup :=
  (toList_pairwise_ne m).imp fun hne heq => hne (congrArg Prod.fst heq)

end

theorem toList_perm_erase {m : OrdMap κ ν} {v : ν} (h : m[k]? = some v) :
    m.toList.Perm ((k, v) :: (m.erase k).toList) := by
  have hfresh : (k, v) ∉ (m.erase k).toList := by
    rw [mem_toList, getElem?_erase, if_pos rfl]
    nofun
  refine (perm_ext_iff_of_nodup (toList_nodup m)
    (nodup_cons.2 ⟨hfresh, toList_nodup _⟩)).2 fun item => ?_
  obtain ⟨a, w⟩ := item
  rw [mem_cons, mem_toList, mem_toList, getElem?_erase]
  by_cases ha : k = a
  · subst ha
    rw [h, if_pos rfl]
    simp [eq_comm]
  · rw [if_neg ha]
    simp [Ne.symm ha]

theorem erase_eq_self {m : OrdMap κ ν} (h : m[k]? = none) : m.erase k = m := by
  refine ext fun a => ?_
  rw [getElem?_erase]
  split
  · next heq => rw [← heq, h]
  · rfl

theorem erase_insert (m : OrdMap κ ν) (k : κ) (v : ν) : (m.insert k v).erase k = m.erase k := by
  refine ext fun a => ?_
  rw [getElem?_erase, getElem?_erase, getElem?_insert]
  split <;> rfl

theorem filterMap_toList_erase {β : Type} (f : κ × ν → Option β) (m : OrdMap κ ν) (k : κ) :
    (m.toList.filterMap f).Perm
      ((m[k]?.bind fun v => f (k, v)).toList ++ (m.erase k).toList.filterMap f) := by
  cases h : m[k]? with
  | none =>
    rw [erase_eq_self h]
    exact List.Perm.refl _
  | some v =>
    refine ((toList_perm_erase h).filterMap f).trans ?_
    cases hf : f (k, v) with
    | none => simp [hf]
    | some b => simp [hf]

theorem toList_insert_empty (k : κ) (v : ν) : ((∅ : OrdMap κ ν).insert k v).toList = [(k, v)] := by
  have hlength : ((∅ : OrdMap κ ν).insert k v).toList.length = 1 := by
    rw [Std.ExtTreeMap.length_toList, Std.ExtTreeMap.size_insert]
    simp
  obtain ⟨x, hx⟩ := length_eq_one_iff.1 hlength
  have hmem : (k, v) ∈ ((∅ : OrdMap κ ν).insert k v).toList :=
    (mem_toList _ _ _).2 (getElem?_insert_self _ _ _)
  rw [hx, mem_singleton] at hmem
  rw [hx, hmem]

/-- The map with `k` at `v?`, unless there is nothing to put there. -/
def insertOption (m : OrdMap κ ν) (k : κ) (v? : Option ν) : OrdMap κ ν :=
  match v? with
  | some v => m.insert k v
  | none => m

theorem getElem?_insertOption (m : OrdMap κ ν) (k a : κ) (v? : Option ν) :
    (m.insertOption k v?)[a]? = if k = a then v?.or m[a]? else m[a]? := by
  cases v? with
  | none => simp [insertOption]
  | some v => simp [insertOption, getElem?_insert]

theorem getElem?_foldl_insertOption (ks : List κ) (f : κ → Option ν) (m : OrdMap κ ν) (a : κ) :
    (ks.foldl (fun m k => m.insertOption k (f k)) m)[a]? =
      if a ∈ ks then (f a).or m[a]? else m[a]? := by
  induction ks generalizing m with
  | nil => simp
  | cons k ks ih =>
    rw [foldl_cons, ih, getElem?_insertOption]
    by_cases hk : k = a
    · subst hk
      cases f k <;> simp
    · simp [hk, Ne.symm hk]

theorem getElem?_foldl_erase (ks : List κ) (m : OrdMap κ ν) (a : κ) :
    (ks.foldl (fun m k => m.erase k) m)[a]? = if a ∈ ks then none else m[a]? := by
  induction ks generalizing m with
  | nil => simp
  | cons k ks ih =>
    rw [foldl_cons, ih, getElem?_erase]
    by_cases hk : k = a
    · simp [hk]
    · simp [hk, Ne.symm hk]

/-- A fold over bindings of distinct keys whose step touches only the binding's
own key, where it acts as `f`. -/
theorem getElem?_foldl_distinct {μ : Type} {g : OrdMap κ ν → κ × μ → OrdMap κ ν}
    {f : κ → μ → Option ν → Option ν} (hself : ∀ m x, (g m x)[x.1]? = f x.1 x.2 m[x.1]?)
    (hother : ∀ m x (a : κ), x.1 ≠ a → (g m x)[a]? = m[a]?) {items : List (κ × μ)}
    (hdistinct : items.Pairwise fun x y => x.1 ≠ y.1) (m : OrdMap κ ν) (a : κ) :
    (∀ v, (a, v) ∈ items → (items.foldl g m)[a]? = f a v m[a]?) ∧
      ((∀ v, (a, v) ∉ items) → (items.foldl g m)[a]? = m[a]?) := by
  induction items generalizing m with
  | nil => exact ⟨by simp, fun _ => rfl⟩
  | cons x items ih =>
    obtain ⟨hhead, htail⟩ := pairwise_cons.1 hdistinct
    obtain ⟨hin, hout⟩ := ih htail (g m x)
    refine ⟨fun v hv => ?_, fun hnot => ?_⟩
    · rcases mem_cons.1 hv with rfl | hv
      · rw [foldl_cons, hout fun w hw => hhead _ hw rfl, hself]
      · rw [foldl_cons, hin v hv, hother m x a (hhead _ hv)]
    · have hne : x.1 ≠ a := fun h => hnot x.2 (by simp [← h])
      rw [foldl_cons, hout fun v hv => hnot v (mem_cons_of_mem x hv), hother m x a hne]

/-- A fold over the entries of a map whose step touches only the entry's own
key, where it acts as `f`: each key is acted on once. -/
theorem getElem?_foldl_toList {μ : Type} (n : OrdMap κ μ)
    (g : OrdMap κ ν → κ × μ → OrdMap κ ν) (f : κ → μ → Option ν → Option ν)
    (hself : ∀ m x, (g m x)[x.1]? = f x.1 x.2 m[x.1]?)
    (hother : ∀ m x (a : κ), x.1 ≠ a → (g m x)[a]? = m[a]?) (m : OrdMap κ ν) (a : κ) :
    (n.toList.foldl g m)[a]? =
      match n[a]? with
      | some v => f a v m[a]?
      | none => m[a]? := by
  obtain ⟨hin, hout⟩ := getElem?_foldl_distinct hself hother (toList_pairwise_ne n) m a
  cases hn : n[a]? with
  | none => exact hout fun v hv => by simp [(mem_toList _ _ _).1 hv] at hn
  | some v => exact hin v ((mem_toList _ _ _).2 hn)

section

variable {μ ρ : Type} {m : OrdMap κ ν} {item : κ × ν → μ} {key : μ → κ}

/-- Inserting what was made of the entries of a map, under the keys they had. -/
theorem foldl_insert_items {value : μ → ρ} {g : ν → ρ} {n : OrdMap κ ρ}
    (hkey : ∀ x ∈ m.toList, key (item x) = x.1) (hvalue : ∀ x, value (item x) = g x.2)
    (hn : ∀ a : κ, n[a]? = m[a]?.map g) :
    (m.toList.map item).foldl (fun all y => all.insert (key y) (value y)) ∅ = n := by
  have hsame : (m.toList.map item).foldl (fun all y => all.insert (key y) (value y)) ∅ =
      m.toList.foldl (fun all x => all.insert x.1 (g x.2)) (∅ : OrdMap κ ρ) := by
    rw [foldl_map]
    exact foldl_ext _ _ _ fun all x hx => by rw [hkey x hx, hvalue]
  refine hsame.trans (ext fun a => ?_)
  rw [getElem?_foldl_toList m _ (fun _ v _ => some (g v))
    (fun n x => getElem?_insert_self n x.1 _) fun n x a h => getElem?_insert_of_ne n _ h, hn]
  cases m[a]? <;> simp

theorem nodup_items (hkey : ∀ x ∈ m.toList, key (item x) = x.1) :
    ((m.toList.map item).map key).Nodup := by
  have hmap : (m.toList.map item).map key = m.toList.map Prod.fst := by
    rw [List.map_map]
    exact map_congr_left hkey
  rw [hmap]
  exact pairwise_map.2 (toList_pairwise_ne m)

end

theorem getD_eq (m : OrdMap κ ν) (k : κ) (v : ν) : m.getD k v = m[k]?.getD v :=
  Std.ExtTreeMap.getD_eq_getD_getElem?

/-- A fold over keys whose step acts as `f` at its own key only, where no key comes
again or a second time changes nothing more. -/
theorem getElem?_foldl_keys {g : OrdMap κ ν → κ → OrdMap κ ν} {f : Option ν → Option ν}
    (hself : ∀ m (k : κ), (g m k)[k]? = f m[k]?)
    (hother : ∀ m (k a : κ), k ≠ a → (g m k)[a]? = m[a]?) {ks : List κ}
    (hks : ks.Nodup ∨ ∀ v, f (f v) = f v) (m : OrdMap κ ν) (a : κ) :
    (ks.foldl g m)[a]? = if a ∈ ks then f m[a]? else m[a]? := by
  induction ks generalizing m with
  | nil => rfl
  | cons k ks ih =>
    rw [foldl_cons, ih (hks.imp_left fun h => (nodup_cons.1 h).2)]
    by_cases hk : k = a
    · subst hk
      rw [hself, if_pos mem_cons_self]
      split
      · next hmem => exact hks.resolve_left (fun h => (nodup_cons.1 h).1 hmem) _
      · rfl
    · rw [hother m k a hk]
      simp [Ne.symm hk]

/-- The values of `f` at the keys `ks`. -/
def tabulate (ks : List κ) (f : κ → Option ν) : OrdMap κ ν :=
  ks.foldl (fun m k => m.insertOption k (f k)) ∅

theorem getElem?_tabulate (ks : List κ) (f : κ → Option ν) (a : κ) :
    (tabulate ks f)[a]? = if a ∈ ks then f a else none := by
  simp [tabulate, getElem?_foldl_insertOption]

theorem getElem?_tabulate_of_support {ks : List κ} {f : κ → Option ν}
    (h : ∀ a, (f a).isSome → a ∈ ks) (a : κ) : (tabulate ks f)[a]? = f a := by
  rw [getElem?_tabulate]
  by_cases ha : a ∈ ks
  · rw [if_pos ha]
  · rw [if_neg ha]
    exact (Option.not_isSome_iff_eq_none.1 fun hs => ha (h a hs)).symm

end OrdMap

end Macha
