import WeightCompression.Highway
import Mathlib.Data.PNat.Basic

/-!
# `CompressTraits<float>`

The passthrough representation of `backprop/`. Compress copies its input to the output
buffer, Decompress copies it back, and Dot is `hn::Dot::Compute`. Compress and Decompress
run `for (i = 0; i < num; i += 2 * N)` with two whole vectors per trip and assert
`num >= 2 * N && num % (2 * N) == 0`. Under that assertion both calls are elementwise on
their range; whatever `num` is, Decompress writes `in[in_ofs + k]` at every `k < num`. The
assertion is a debug check only, and without it both loops store past the range.
-/

namespace WeightCompression

namespace F32

variable {α γ : Type}

/-- `for (size_t i = 0; i < num; i += 2 * N) body(i)`. -/
def vecLoop (N : ℕ+) (num : Nat) (body : Nat → List (Access γ)) (i : Nat) : List (Access γ) :=
  if i < num then body i ++ vecLoop N num body (i + 2 * N) else []
termination_by num - i
decreasing_by have := N.pos; omega

/-- One trip of Compress at `i`: two `LoadU` and two `StoreU`. -/
def compressBody (N : Nat) (inp : Nat → α) (outOfs i : Nat) : List (Access α) :=
  loadsU i N ++ loadsU (i + N) N ++ storesU (vecU inp i) (outOfs + i) N ++
    storesU (vecU inp (i + N)) (outOfs + i + N) N

/-- `CompressTraits<float>::Compress(df, in, num, tls, out_capacity, out, out_ofs)` with
`N = hn::Lanes(df)`: the accesses it issues. -/
def compress (N : ℕ+) (inp : Nat → α) (num outOfs : Nat) : List (Access α) :=
  vecLoop N num (compressBody N inp outOfs) 0

/-- One trip of Decompress at `i`: `Decompress2(df, in, in_ofs + i, in0, in1)`, then the
stores of `in0` at `i` and `in1` at `i + N`. -/
def decompressBody (N : Nat) (inp : Nat → α) (inOfs i : Nat) : List (Access α) :=
  loadsU (inOfs + i) N ++ loadsU (inOfs + i + N) N ++ storesU (vecU inp (inOfs + i)) i N ++
    storesU (vecU inp (inOfs + i + N)) (i + N) N

/-- `CompressTraits<float>::Decompress(df, in_capacity, in, in_ofs, out, num)`. -/
def decompress (N : ℕ+) (inp : Nat → α) (inOfs num : Nat) : List (Access α) :=
  vecLoop N num (decompressBody N inp inOfs) 0

/-- `CompressTraits<float>::Dot(df, in_capacity, in, in_ofs, vec_aligned, num)`:
`hn::Dot::Compute<kAtLeastOneVector | kMultipleOfVector>(df, in + in_ofs, vec_aligned, num)`
on the `N` lanes of `df`. -/
def dot [AddCommMonoid α] [Mul α] (N : ℕ+) (inp : Nat → α) (inOfs : Nat) (vec : Nat → α)
    (num : Nat) : α :=
  dotCompute N (fun k => inp (inOfs + k)) vec num

theorem vecLoop_pos {N : ℕ+} {num : Nat} {body : Nat → List (Access γ)} {i : Nat} (h : i < num) :
    vecLoop N num body i = body i ++ vecLoop N num body (i + 2 * N) := by
  rw [vecLoop, if_pos h]

theorem vecLoop_neg {N : ℕ+} {num : Nat} {body : Nat → List (Access γ)} {i : Nat}
    (h : ¬ i < num) : vecLoop N num body i = [] := by
  rw [vecLoop, if_neg h]

/-- If trip `j` loads inside `[lo + j, lo + j + 2 * N)` and stores `f k` at each `k` of
`[base + j, base + j + 2 * N)`, the loop run from `i` covers `[i, e)` for an end `e ≡ i`
modulo `2 * N`, the first such at or past `num`. -/
theorem vecLoop_spec (N : ℕ+) (num : Nat) (body : Nat → List (Access γ)) (lo base : Nat)
    (f : Nat → γ) (hload : ∀ j k, .load k ∈ body j → lo + j ≤ k ∧ k < lo + j + 2 * N)
    (hstore : ∀ j k, storedAt k (body j) =
      if base + j ≤ k ∧ k < base + j + 2 * N then [f k] else []) :
    ∀ i, ∃ e, i ≤ e ∧ (i < num → num ≤ e ∧ e < num + 2 * N) ∧ (num ≤ i → e = i) ∧
      e % (2 * N) = i % (2 * N) ∧
      (∀ k, .load k ∈ vecLoop N num body i → lo + i ≤ k ∧ k < lo + e) ∧
      (∀ k, storedAt k (vecLoop N num body i) = if base + i ≤ k ∧ k < base + e then [f k] else []) := by
  intro i
  induction i using vecLoop.induct N num body with
  | case1 i hi ih =>
      obtain ⟨e, h1, h2, h3, hm, hl, hs⟩ := ih
      refine ⟨e, by omega, fun _ => ?_, fun h => absurd hi (by omega), by rw [hm, Nat.add_mod_right],
        fun k hk => ?_, fun k => ?_⟩
      · by_cases h : i + 2 * N < num
        · exact h2 h
        · rw [h3 (by omega)]; omega
      · rw [vecLoop_pos hi] at hk
        rcases List.mem_append.mp hk with hk | hk
        · have := hload i k hk
          by_cases h : i + 2 * N < num
          · have := h2 h; omega
          · have := h3 (by omega); omega
        · have := hl k hk; omega
      · rw [vecLoop_pos hi, storedAt_append, hstore, hs, ← Nat.add_assoc]
        exact ite_range_append (by omega) (by omega)
  | case2 i hi =>
      refine ⟨i, le_refl _, fun h => absurd h hi, fun _ => rfl, rfl, fun k hk => ?_, fun k => ?_⟩
      · rw [vecLoop_neg hi] at hk; simp at hk
      · rw [vecLoop_neg hi, if_neg (by omega)]; rfl

/-- Run from `0` over a multiple of `2 * N`, the loop is elementwise on exactly `[0, num)`. -/
theorem vecLoop_spec_of_dvd (N : ℕ+) (num : Nat) (body : Nat → List (Access γ)) (lo base : Nat)
    (f : Nat → γ) (hload : ∀ j k, .load k ∈ body j → lo + j ≤ k ∧ k < lo + j + 2 * N)
    (hstore : ∀ j k, storedAt k (body j) =
      if base + j ≤ k ∧ k < base + j + 2 * N then [f k] else [])
    (hnum : num % (2 * N) = 0) : Elementwise (vecLoop N num body 0) lo base num f := by
  obtain ⟨e, -, h2, h3, hm, hl, hs⟩ := vecLoop_spec N num body lo base f hload hstore 0
  have he : e = num := by
    rcases Nat.eq_zero_or_pos num with h0 | h0
    · rw [h3 (by omega), h0]
    · obtain ⟨h4, h5⟩ := h2 h0
      rw [Nat.zero_mod] at hm
      have := Nat.sub_mod_eq_zero_of_mod_eq (hm.trans hnum.symm)
      have := Nat.eq_zero_of_dvd_of_lt (Nat.dvd_of_mod_eq_zero this) (by omega : e - num < 2 * N)
      omega
  subst he
  exact ⟨fun k hk => by simpa using hl k hk, fun k => by simpa using hs k⟩

theorem load_mem_compressBody {N : Nat} {inp : Nat → α} {outOfs i k : Nat}
    (h : (.load k : Access α) ∈ compressBody N inp outOfs i) : i ≤ k ∧ k < i + 2 * N := by
  simp only [compressBody, List.mem_append, load_mem_loadsU, load_not_mem_storesU, or_false] at h
  omega

theorem storedAt_compressBody (N : Nat) (inp : Nat → α) (outOfs i k : Nat) :
    storedAt k (compressBody N inp outOfs i) =
      if outOfs + i ≤ k ∧ k < outOfs + i + 2 * N then [inp (k - outOfs)] else [] := by
  rw [compressBody, storedAt_append, storedAt_append, storedAt_append, storedAt_loadsU,
    storedAt_loadsU, List.nil_append, List.nil_append,
    storedAt_storesU_eq (g := fun k => inp (k - outOfs)) (fun k h _ => by
      simp only [vecU_apply]; congr 1; omega),
    storedAt_storesU_eq (g := fun k => inp (k - outOfs)) (fun k h _ => by
      simp only [vecU_apply]; congr 1; omega),
    ite_range_append (by omega) (by omega)]
  simp only [Nat.add_assoc, ← Nat.two_mul]

theorem load_mem_decompressBody {N : Nat} {inp : Nat → α} {inOfs i k : Nat}
    (h : (.load k : Access α) ∈ decompressBody N inp inOfs i) :
    inOfs + i ≤ k ∧ k < inOfs + i + 2 * N := by
  simp only [decompressBody, List.mem_append, load_mem_loadsU, load_not_mem_storesU,
    or_false] at h
  omega

theorem storedAt_decompressBody (N : Nat) (inp : Nat → α) (inOfs i k : Nat) :
    storedAt k (decompressBody N inp inOfs i) =
      if i ≤ k ∧ k < i + 2 * N then [inp (inOfs + k)] else [] := by
  rw [decompressBody, storedAt_append, storedAt_append, storedAt_append, storedAt_loadsU,
    storedAt_loadsU, List.nil_append, List.nil_append,
    storedAt_storesU_eq (g := fun k => inp (inOfs + k)) (fun k h _ => by
      simp only [vecU_apply]; congr 1; omega),
    storedAt_storesU_eq (g := fun k => inp (inOfs + k)) (fun k h _ => by
      simp only [vecU_apply]; congr 1; omega),
    ite_range_append (by omega) (by omega)]
  simp only [Nat.add_assoc, ← Nat.two_mul]

/-- Decompress writes `in[in_ofs + k]` at every `k < num`, whatever `num` is. -/
theorem decompress_apply_of_lt (N : ℕ+) (inp : Nat → α) (inOfs : Nat) {num : Nat}
    (out : Nat → α) {k : Nat} (hk : k < num) :
    applyStores out (decompress N inp inOfs num) k = inp (inOfs + k) := by
  obtain ⟨e, -, h2, -, -, -, hs⟩ := vecLoop_spec N num (decompressBody N inp inOfs) inOfs 0
    (fun k => inp (inOfs + k)) (fun j k hk => load_mem_decompressBody hk)
    (fun j k => by rw [storedAt_decompressBody, Nat.zero_add]) 0
  rw [applyStores_apply, decompress, hs, if_pos ⟨by omega, by have := h2 (by omega); omega⟩]
  rfl

/-- Under its assertion, Decompress loads only `[in_ofs, in_ofs + num)` and stores
`in[in_ofs + k]` at every `k < num` and nowhere else. -/
theorem decompress_spec_of_dvd (N : ℕ+) (inp : Nat → α) (inOfs num : Nat)
    (hnum : num % (2 * N) = 0) :
    Elementwise (decompress N inp inOfs num) inOfs 0 num fun k => inp (inOfs + k) :=
  vecLoop_spec_of_dvd N num (decompressBody N inp inOfs) inOfs 0 _
    (fun j k hk => load_mem_decompressBody hk)
    (fun j k => by rw [storedAt_decompressBody, Nat.zero_add]) hnum

/-- Under its assertion, Compress loads only `[0, num)` and stores `in[k]` at `out_ofs + k`
for `k < num` and nowhere else. -/
theorem compress_spec_of_dvd (N : ℕ+) (inp : Nat → α) (num outOfs : Nat)
    (hnum : num % (2 * N) = 0) :
    Elementwise (compress N inp num outOfs) 0 outOfs num fun k => inp (k - outOfs) :=
  vecLoop_spec_of_dvd N num (compressBody N inp outOfs) 0 outOfs _
    (fun j k hk => by have := load_mem_compressBody hk; omega)
    (fun j k => storedAt_compressBody N inp outOfs j k) hnum

/-- Past a count that is not a multiple of `2 * N`, the loop's last trip runs beyond `num`
and stores at `base + num`. -/
theorem storedAt_vecLoop_past_end (N : ℕ+) (num : Nat) (body : Nat → List (Access γ))
    (lo base : Nat) (f : Nat → γ)
    (hload : ∀ j k, .load k ∈ body j → lo + j ≤ k ∧ k < lo + j + 2 * N)
    (hstore : ∀ j k, storedAt k (body j) =
      if base + j ≤ k ∧ k < base + j + 2 * N then [f k] else [])
    (h : num % (2 * N) ≠ 0) : storedAt (base + num) (vecLoop N num body 0) = [f (base + num)] := by
  obtain ⟨e, -, h2, -, hm, -, hs⟩ := vecLoop_spec N num body lo base f hload hstore 0
  have hpos : 0 < num := Nat.pos_of_ne_zero fun h0 => h (by rw [h0, Nat.zero_mod])
  obtain ⟨h4, -⟩ := h2 hpos
  have hne : e ≠ num := fun he => h (by rw [← he, hm, Nat.zero_mod])
  rw [hs, if_pos ⟨by omega, by omega⟩]

/-- Without its assertion the float codec overruns: when `num` is not a multiple of `2 * N`,
Compress writes `out[out_ofs + num]` and Decompress writes `out[num]`. -/
theorem stores_past_end_of_not_dvd (N : ℕ+) (inp : Nat → α) (num outOfs inOfs : Nat)
    (h : num % (2 * N) ≠ 0) :
    (∃ v, Access.store (outOfs + num) v ∈ compress N inp num outOfs) ∧
      ∃ v, Access.store num v ∈ decompress N inp inOfs num := by
  have hc := storedAt_vecLoop_past_end N num (compressBody N inp outOfs) 0 outOfs
    (fun k => inp (k - outOfs)) (fun j k hk => by have := load_mem_compressBody hk; omega)
    (fun j k => storedAt_compressBody N inp outOfs j k) h
  have hd := storedAt_vecLoop_past_end N num (decompressBody N inp inOfs) inOfs 0
    (fun k => inp (inOfs + k)) (fun j k hk => load_mem_decompressBody hk)
    (fun j k => by rw [storedAt_decompressBody, Nat.zero_add]) h
  rw [Nat.zero_add] at hd
  exact ⟨⟨_, store_mem_of_mem_storedAt (hc ▸ List.mem_singleton_self _)⟩,
    ⟨_, store_mem_of_mem_storedAt (hd ▸ List.mem_singleton_self _)⟩⟩

theorem stores_past_end_of_not_dvd_six :
    6 % (2 * ((2 : ℕ+) : Nat)) ≠ 0 ∧
      (∃ v, Access.store (3 + 6) v ∈ compress 2 (fun k : Nat => k) 6 3) ∧
      ∃ v, Access.store 6 v ∈ decompress 2 (fun k : Nat => k) 1 6 :=
  ⟨by decide, stores_past_end_of_not_dvd 2 (fun k : Nat => k) 6 3 1 (by decide)⟩

end F32

end WeightCompression
