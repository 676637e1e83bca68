import Mathlib.Data.List.Range
import Mathlib.Order.Basic
import Mathlib.Algebra.Group.Nat.Basic

/-!
# Element accesses of a codec call

A `CompressTraits` entry point reads its input buffer and writes its output buffer
through SIMD loads and stores of whole lane vectors. A call is recorded as the list
of element accesses it issues, in program order, and the output buffer after the call
is `applyStores` of that list. Input and output are distinct buffers (`HWY_RESTRICT`),
so the values a call stores are computed from the input alone.

`Elementwise` is the specification a codec call is measured against: it reads one range
and writes one value at each position of another range, and nothing else.
-/

namespace WeightCompression

/-- One element access: a load from the input buffer or a store to the output buffer. -/
inductive Access (β : Type) where
  | load (k : Nat)
  | store (k : Nat) (v : β)
  deriving DecidableEq, Repr

variable {β : Type}

/-- The values that the accesses store at position `k`, in program order. -/
def storedAt (k : Nat) : List (Access β) → List β
  | [] => []
  | .load _ :: evs => storedAt k evs
  | .store j v :: evs => if j = k then v :: storedAt k evs else storedAt k evs

/-- The output buffer after the accesses `evs`, issued in order, starting from `out`. -/
def applyStores (out : Nat → β) : List (Access β) → Nat → β
  | [] => out
  | .load _ :: evs => applyStores out evs
  | .store j v :: evs => applyStores (fun k => if k = j then v else out k) evs

@[simp] theorem storedAt_nil (k : Nat) : storedAt k ([] : List (Access β)) = [] := rfl

@[simp] theorem storedAt_cons_load (k j : Nat) (evs : List (Access β)) :
    storedAt k (.load j :: evs) = storedAt k evs := rfl

@[simp] theorem storedAt_cons_store (k j : Nat) (v : β) (evs : List (Access β)) :
    storedAt k (.store j v :: evs) = if j = k then v :: storedAt k evs else storedAt k evs :=
  rfl

@[simp] theorem storedAt_append (k : Nat) (evs evs' : List (Access β)) :
    storedAt k (evs ++ evs') = storedAt k evs ++ storedAt k evs' := by
  induction evs with
  | nil => rfl
  | cons e evs ih =>
      cases e with
      | load j => simpa using ih
      | store j v => by_cases h : j = k <;> simp [h, ih]

theorem storedAt_eq_nil {k : Nat} {evs : List (Access β)} :
    storedAt k evs = [] ↔ ∀ v, Access.store k v ∉ evs := by
  induction evs with
  | nil => simp
  | cons e evs ih =>
      cases e with
      | load j => simpa using ih
      | store j v =>
          by_cases h : j = k
          · subst h
            exact ⟨fun h' => by simp at h', fun h' => absurd (List.mem_cons_self _ _) (h' v)⟩
          · simp [h, Ne.symm h, ih]

/-- The value at `k` after the accesses is the last value stored there, or the old one. -/
theorem applyStores_apply (out : Nat → β) (evs : List (Access β)) (k : Nat) :
    applyStores out evs k = (storedAt k evs).foldl (fun _ v => v) (out k) := by
  induction evs generalizing out with
  | nil => rfl
  | cons e evs ih =>
      cases e with
      | load j => exact ih out
      | store j v =>
          rw [applyStores, ih]
          by_cases h : j = k
          · subst h; simp
          · simp [h, Ne.symm h]

theorem applyStores_congr {out : Nat → β} {evs evs' : List (Access β)} {k : Nat}
    (h : storedAt k evs = storedAt k evs') : applyStores out evs k = applyStores out evs' k := by
  rw [applyStores_apply, applyStores_apply, h]

/-- A position that no access stores to keeps its old value. -/
theorem applyStores_of_not_stored {out : Nat → β} {evs : List (Access β)} {k : Nat}
    (h : ∀ v, Access.store k v ∉ evs) : applyStores out evs k = out k := by
  rw [applyStores_apply, storedAt_eq_nil.mpr h]; rfl

theorem storedAt_ne_nil_of_mem {k : Nat} {v : β} {evs : List (Access β)}
    (h : Access.store k v ∈ evs) : storedAt k evs ≠ [] :=
  fun h0 => storedAt_eq_nil.mp h0 v h

theorem store_mem_of_mem_storedAt {k : Nat} {v : β} {evs : List (Access β)}
    (h : v ∈ storedAt k evs) : Access.store k v ∈ evs := by
  induction evs with
  | nil => simp at h
  | cons e evs ih =>
      cases e with
      | load j => exact List.mem_cons_of_mem _ (ih h)
      | store j w =>
          by_cases hj : j = k
          · subst hj
            simp only [storedAt_cons_store, if_true, List.mem_cons] at h
            rcases h with rfl | h
            · exact List.mem_cons_self _ _
            · exact List.mem_cons_of_mem _ (ih h)
          · simp only [storedAt_cons_store, hj, if_false] at h
            exact List.mem_cons_of_mem _ (ih h)

/-- An access of a call made through the pointers `in + dl` and `out + ds`, at the
buffers' own positions. -/
def Access.shift (dl ds : Nat) : Access β → Access β
  | .load k => .load (dl + k)
  | .store k v => .store (ds + k) v

theorem storedAt_map_shift (dl ds k : Nat) (evs : List (Access β)) :
    storedAt k (evs.map (Access.shift dl ds)) = if ds ≤ k then storedAt (k - ds) evs else [] := by
  induction evs with
  | nil => simp
  | cons e evs ih =>
      cases e with
      | load j => simpa [Access.shift] using ih
      | store j v =>
          simp only [List.map_cons, Access.shift, storedAt_cons_store, ih]
          split_ifs <;> first | rfl | omega

/-- A call whose stores are `f k` exactly where `P k` holds, seen through `out + ds`. -/
theorem storedAt_map_shift_of_eq {evs : List (Access β)} {P : Nat → Prop} [DecidablePred P]
    {f : Nat → β} (h : ∀ k, storedAt k evs = if P k then [f k] else []) (dl ds k : Nat) :
    storedAt k (evs.map (Access.shift dl ds)) =
      if ds ≤ k ∧ P (k - ds) then [f (k - ds)] else [] := by
  rw [storedAt_map_shift, h]
  by_cases hk : ds ≤ k <;> simp [hk]

theorem load_mem_map_shift {dl ds k : Nat} {evs : List (Access β)} :
    .load k ∈ evs.map (Access.shift dl ds) ↔ dl ≤ k ∧ .load (k - dl) ∈ evs := by
  simp only [List.mem_map]
  constructor
  · rintro ⟨_ | _, he, hs⟩ <;> simp only [Access.shift, Access.load.injEq, reduceCtorEq] at hs
    subst hs
    simpa using he
  · rintro ⟨hk, he⟩
    exact ⟨_, he, by simp only [Access.shift, Access.load.injEq]; omega⟩

theorem store_mem_map_shift {dl ds k : Nat} {v : β} {evs : List (Access β)} :
    .store k v ∈ evs.map (Access.shift dl ds) ↔ ds ≤ k ∧ .store (k - ds) v ∈ evs := by
  simp only [List.mem_map]
  constructor
  · rintro ⟨_ | _, he, hs⟩ <;> simp only [Access.shift, Access.store.injEq, reduceCtorEq] at hs
    obtain ⟨rfl, rfl⟩ := hs
    simpa using he
  · rintro ⟨hk, he⟩
    exact ⟨_, he, by simp only [Access.shift, Access.store.injEq, and_true]; omega⟩

/-- Stores over two adjacent ranges are stores over their union. -/
theorem ite_range_append {a b c k : Nat} {x : β} (hab : a ≤ b) (hbc : b ≤ c) :
    ((if a ≤ k ∧ k < b then [x] else []) ++ if b ≤ k ∧ k < c then [x] else []) =
      if a ≤ k ∧ k < c then [x] else [] := by
  by_cases h1 : a ≤ k ∧ k < b
  · rw [if_pos h1, if_neg (by omega), if_pos (by omega)]; rfl
  · rw [if_neg h1, List.nil_append]
    by_cases h2 : b ≤ k ∧ k < c
    · rw [if_pos h2, if_pos (by omega)]
    · rw [if_neg h2, if_neg (by omega)]

/-! ### Elementwise calls -/

/-- What a codec call is for: it loads only `[lo, lo + num)`, and it stores `g k` at each
position `k` of `[base, base + num)` and nothing anywhere else. -/
def Elementwise (evs : List (Access β)) (lo base num : Nat) (g : Nat → β) : Prop :=
  (∀ k, Access.load k ∈ evs → lo ≤ k ∧ k < lo + num) ∧
    ∀ k, storedAt k evs = if base ≤ k ∧ k < base + num then [g k] else []

namespace Elementwise

variable {evs : List (Access β)} {lo base num : Nat} {g : Nat → β}

/-- The output after an elementwise call. -/
theorem apply (h : Elementwise evs lo base num g) (out : Nat → β) (k : Nat) :
    applyStores out evs k = if base ≤ k ∧ k < base + num then g k else out k := by
  rw [applyStores_apply, h.2]
  split <;> rfl

/-- Two calls elementwise over the same range with the same values leave the same output,
whatever each reads. -/
theorem applyStores_eq (h : Elementwise evs lo base num g) {evs' : List (Access β)} {lo' : Nat}
    (h' : Elementwise evs' lo' base num g) (out : Nat → β) :
    applyStores out evs = applyStores out evs' :=
  funext fun k => by rw [h.apply, h'.apply]

theorem store_mem (h : Elementwise evs lo base num g) {k : Nat} {v : β}
    (hv : Access.store k v ∈ evs) : base ≤ k ∧ k < base + num := by
  have hne := storedAt_ne_nil_of_mem hv
  rw [h.2] at hne
  by_contra hk
  exact hne (if_neg hk)

theorem congr {lo' base' : Nat} {g' : Nat → β} (h : Elementwise evs lo base num g)
    (hlo : lo = lo') (hbase : base = base') (hg : ∀ k, base ≤ k → k < base + num → g k = g' k) :
    Elementwise evs lo' base' num g' := by
  subst hlo hbase
  refine ⟨h.1, fun k => ?_⟩
  rw [h.2]
  by_cases hk : base ≤ k ∧ k < base + num
  · rw [if_pos hk, if_pos hk, hg k hk.1 hk.2]
  · rw [if_neg hk, if_neg hk]

/-- The same call made through the pointers `in + dl` and `out + ds`. -/
theorem map_shift (h : Elementwise evs lo base num g) (dl ds : Nat) :
    Elementwise (evs.map (Access.shift dl ds)) (dl + lo) (ds + base) num (fun k => g (k - ds)) := by
  refine ⟨fun k hk => ?_, fun k => ?_⟩
  · obtain ⟨h1, h2⟩ := load_mem_map_shift.mp hk
    have := h.1 _ h2
    omega
  · rw [storedAt_map_shift_of_eq h.2]
    exact ite_congr (propext (by omega)) (fun _ => rfl) (fun _ => rfl)

end Elementwise

end WeightCompression
