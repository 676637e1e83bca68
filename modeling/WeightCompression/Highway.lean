import WeightCompression.Memory
import Mathlib.Algebra.BigOperators.Group.Finset

/-!
# Highway vector operations

Lane vectors are functions from lane index to value. `vecU` and `vecN` are the vectors
`hn::LoadU` and `hn::LoadN` return, `loadsU` and `loadsN` the loads they issue, and
`storesU` and `storesN` the stores of `hn::StoreU` and `hn::StoreN`. `dotCompute` is
`hn::Dot::Compute` of `hwy/contrib/dot` with the flags the codecs pass, taken in exact
arithmetic: it adds whole vectors only.
-/

namespace WeightCompression

variable {α β : Type}

/-- The vector `hn::LoadU(d, in + p)` returns. -/
def vecU (inp : Nat → α) (p : Nat) : Nat → α := fun j => inp (p + j)

/-- The vector `hn::LoadN(d, in + p, cnt)` returns: lanes from `cnt` on are zero. -/
def vecN [Zero α] (inp : Nat → α) (p cnt : Nat) : Nat → α :=
  fun j => if j < cnt then inp (p + j) else 0

/-- The loads of `hn::LoadU` of `n` lanes at `p`. -/
def loadsU (p n : Nat) : List (Access β) := (List.range n).map fun j => .load (p + j)

/-- The loads of `hn::LoadN(d, p, cnt)` on a descriptor of `n` lanes. -/
def loadsN (p n cnt : Nat) : List (Access β) := loadsU p (min cnt n)

/-- The stores of `hn::StoreU(v, d, p)` on a descriptor of `n` lanes. -/
def storesU (v : Nat → β) (p n : Nat) : List (Access β) :=
  (List.range n).map fun j => .store (p + j) (v j)

/-- The stores of `hn::StoreN(v, d, p, cnt)` on a descriptor of `n` lanes. -/
def storesN (v : Nat → β) (p n cnt : Nat) : List (Access β) := storesU v p (min cnt n)

@[simp] theorem vecU_apply (inp : Nat → α) (p j : Nat) : vecU inp p j = inp (p + j) := rfl

theorem vecN_of_lt [Zero α] (inp : Nat → α) {p cnt j : Nat} (h : j < cnt) :
    vecN inp p cnt j = inp (p + j) := if_pos h

@[simp] theorem storedAt_loadsU (k p n : Nat) : storedAt k (loadsU p n : List (Access β)) = [] :=
  storedAt_eq_nil.mpr fun _ => by simp [loadsU]

@[simp] theorem storedAt_loadsN (k p n cnt : Nat) :
    storedAt k (loadsN p n cnt : List (Access β)) = [] := storedAt_loadsU k p _

theorem storedAt_storesU (k : Nat) (v : Nat → β) (p n : Nat) :
    storedAt k (storesU v p n) = if p ≤ k ∧ k < p + n then [v (k - p)] else [] := by
  induction n with
  | zero => simp [storesU]
  | succ n ih =>
      rw [storesU, List.range_succ, List.map_append, storedAt_append, ← storesU, ih]
      by_cases h : p + n = k
      · subst h; simp
      · have : (p ≤ k ∧ k < p + (n + 1)) ↔ (p ≤ k ∧ k < p + n) := by omega
        simp [h, this]

/-- The stores of a vector whose lane `k - p` holds `g k`. -/
theorem storedAt_storesU_eq {v g : Nat → β} {p n : Nat}
    (hv : ∀ k, p ≤ k → k < p + n → v (k - p) = g k) (k : Nat) :
    storedAt k (storesU v p n) = if p ≤ k ∧ k < p + n then [g k] else [] := by
  rw [storedAt_storesU]
  split_ifs with h
  · rw [hv k h.1 h.2]
  · rfl

@[simp] theorem load_mem_loadsU {k p n : Nat} :
    (Access.load k : Access β) ∈ loadsU p n ↔ p ≤ k ∧ k < p + n := by
  simp only [loadsU, List.mem_map, List.mem_range, Access.load.injEq]
  constructor
  · rintro ⟨j, hj, rfl⟩; omega
  · rintro ⟨h1, h2⟩; exact ⟨k - p, by omega, by omega⟩

@[simp] theorem store_not_mem_loadsU {k p n : Nat} {v : β} :
    Access.store k v ∉ (loadsU p n : List (Access β)) := by simp [loadsU]

@[simp] theorem load_not_mem_storesU {k p n : Nat} {v : Nat → β} :
    Access.load k ∉ storesU v p n := by simp [storesU]

@[simp] theorem store_mem_storesU {k p n : Nat} {v : β} {w : Nat → β} :
    Access.store k v ∈ storesU w p n ↔ p ≤ k ∧ k < p + n ∧ v = w (k - p) := by
  simp only [storesU, List.mem_map, List.mem_range, Access.store.injEq]
  constructor
  · rintro ⟨j, hj, rfl, rfl⟩; exact ⟨by omega, by omega, by simp⟩
  · rintro ⟨h1, h2, rfl⟩; exact ⟨k - p, by omega, by omega, rfl⟩

/-- `hn::Dot::Compute<kAtLeastOneVector | kMultipleOfVector>(d, a, b, num)` on a descriptor of
`N` lanes, in exact arithmetic: the flags let it skip the remainder loop, so it adds
`a[k] * b[k]` over the `num / N` whole vectors only, whatever the order of the lanes. -/
def dotCompute [AddCommMonoid α] [Mul α] (N : Nat) (a b : Nat → α) (num : Nat) : α :=
  ∑ k ∈ Finset.range (num / N * N), a k * b k

/-- When `N` divides `num`, as the callers assert, no remainder is dropped. -/
theorem dotCompute_of_dvd [AddCommMonoid α] [Mul α] {N num : Nat} (h : N ∣ num) (a b : Nat → α) :
    dotCompute N a b num = ∑ k ∈ Finset.range num, a k * b k := by
  rw [dotCompute, Nat.div_mul_cancel h]

end WeightCompression
