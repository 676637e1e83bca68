import WeightCompression.Highway
import Mathlib.Data.PNat.Basic

/-!
# `CompressTraits<hwy::bfloat16_t>`: Compress and Decompress

`N` is `hn::Lanes(df)` for the f32 descriptor; one bf16 vector holds `2 * N` lanes. The
main loops take `2 * N` elements at a time and a tail handles what is left. `demote` and
`promote` are the lane conversions of `hn::OrderedDemote2To` and `hn::PromoteLowerTo` /
`hn::PromoteUpperTo`.

Both tails are written to take any `num`. The Decompress tail is exact: it loads and
stores only inside the range. The Compress tail stores a whole `2 * N`-lane vector, and
it loads `remaining - min(remaining, N / 2)` lanes of the second input vector, which is
more than is left once `remaining > N / 2`.
-/

namespace WeightCompression

namespace Bf16

variable {α β : Type}

/-! ### The main loop shared by Compress and Decompress -/

section MainLoop

variable {γ : Type}

/-- `for (; i <= num - 2 * N; i += 2 * N) body(i)`, entered only when `num >= 2 * N`
(`N16 = 2 * N` in Decompress): the index at which it stops and the accesses. -/
def mainLoop (N : ℕ+) (num : Nat) (body : Nat → List (Access γ)) (i : Nat) :
    Nat × List (Access γ) :=
  if i ≤ num - 2 * N then
    let r := mainLoop N num body (i + 2 * N)
    (r.1, body i ++ r.2)
  else (i, [])
termination_by num + 1 - i
decreasing_by have := N.pos; omega

theorem mainLoop_pos {N : ℕ+} {num : Nat} {body : Nat → List (Access γ)} {i : Nat}
    (h : i ≤ num - 2 * N) : mainLoop N num body i =
      ((mainLoop N num body (i + 2 * N)).1, body i ++ (mainLoop N num body (i + 2 * N)).2) := by
  rw [mainLoop, if_pos h]

theorem mainLoop_neg {N : ℕ+} {num : Nat} {body : Nat → List (Access γ)} {i : Nat}
    (h : ¬ i ≤ num - 2 * N) : mainLoop N num body i = (i, []) := by
  rw [mainLoop, if_neg h]

/-- If iteration `j` loads inside `[lo + j, lo + j + 2 * N)` and stores `f k` at each `k` of
`[base + j, base + j + 2 * N)`, the loop run from `i ≤ num` stops at some `i'` with
`num - 2 * N < i' ≤ num`, loads inside `[lo + i, lo + i')` and stores `f k` at each `k` of
`[base + i, base + i')`. -/
theorem mainLoop_spec (N : ℕ+) (num : Nat) (body : Nat → List (Access γ)) (lo base : Nat)
    (f : Nat → γ) (hload : ∀ j k, .load k ∈ body j → lo + j ≤ k ∧ k < lo + j + 2 * N)
    (hstore : ∀ j k, storedAt k (body j) =
      if base + j ≤ k ∧ k < base + j + 2 * N then [f k] else [])
    (hN : 2 * N ≤ num) : ∀ i, i ≤ num →
      i ≤ (mainLoop N num body i).1 ∧ (mainLoop N num body i).1 ≤ num ∧
      num < (mainLoop N num body i).1 + 2 * N ∧
      (mainLoop N num body i).1 % (2 * N) = i % (2 * N) ∧
      (∀ k, .load k ∈ (mainLoop N num body i).2 → lo + i ≤ k ∧ k < lo + (mainLoop N num body i).1) ∧
      (∀ k, storedAt k (mainLoop N num body i).2 =
        if base + i ≤ k ∧ k < base + (mainLoop N num body i).1 then [f k] else []) := by
  intro i
  induction i using mainLoop.induct N num body with
  | case1 i hi ih =>
      intro _
      rw [mainLoop_pos hi]
      obtain ⟨h1, h2, h3, hm, hl, hs⟩ := ih (by omega)
      refine ⟨by omega, h2, h3, by rw [hm, Nat.add_mod_right], fun k hk => ?_, fun k => ?_⟩
      · rcases List.mem_append.mp hk with hk | hk
        · have := hload i k hk; omega
        · have := hl k hk; omega
      · rw [storedAt_append, hstore, hs, ← Nat.add_assoc]
        exact ite_range_append (by omega) (by omega)
  | case2 i hi =>
      intro hle
      rw [mainLoop_neg hi]
      refine ⟨le_refl _, hle, by omega, rfl, fun k hk => by simp at hk, fun k => ?_⟩
      rw [if_neg (by omega)]; rfl

/-- A loop exit `i' ≡ 0 (mod w)` with `num - w < i' ≤ num` is `num - num % w`. -/
theorem eq_sub_mod_of_bounds {i' num w : Nat} (h2 : i' ≤ num) (h3 : num < i' + w)
    (hm : i' % w = 0) : i' = num - num % w := by
  have hsplit : num = i' + (num - i') := by omega
  have : num % w = num - i' := by
    rw [hsplit, Nat.add_mod, hm, Nat.zero_add, Nat.mod_mod, Nat.mod_eq_of_lt (by omega)]
    omega
  omega

/-- The main loop as Compress and Decompress enter it, from `0` and only when `num ≥ 2 * N`:
it stops at `num - num % (2 * N)`, loads inside `lo` plus that prefix and stores `f k` at
each `k` of `base` plus that prefix. -/
theorem guardedLoop_spec (N : ℕ+) (num : Nat) (body : Nat → List (Access γ)) (lo base : Nat)
    (f : Nat → γ) (hload : ∀ j k, .load k ∈ body j → lo + j ≤ k ∧ k < lo + j + 2 * N)
    (hstore : ∀ j k, storedAt k (body j) =
      if base + j ≤ k ∧ k < base + j + 2 * N then [f k] else []) :
    let r := if num ≥ 2 * N then mainLoop N num body 0 else (0, [])
    r.1 = num - num % (2 * N) ∧ Elementwise r.2 lo base r.1 f := by
  intro r
  by_cases hN : num ≥ 2 * N
  · obtain ⟨-, h2, h3, hm, hl, hs⟩ := mainLoop_spec N num body lo base f hload hstore hN 0
      (Nat.zero_le _)
    simp only [r, if_pos hN]
    exact ⟨eq_sub_mod_of_bounds h2 h3 (by simpa using hm), fun k hk => by simpa using hl k hk,
      by simpa using hs⟩
  · simp only [r, if_neg hN]
    exact ⟨by rw [Nat.mod_eq_of_lt (by omega), Nat.sub_self], by simp, fun k => by simp⟩

end MainLoop

section Compress

variable (demote : α → β)

/-- `hn::OrderedDemote2To(dbf, in0, in1)`: the `2 * N` bf16 lanes of `in0`, then `in1`. -/
def orderedDemote2To (N : Nat) (in0 in1 : Nat → α) : Nat → β :=
  fun m => if m < N then demote (in0 m) else demote (in1 (m - N))

/-- One iteration of the main loop of Compress, at element `i`. -/
def compressBody (N : Nat) (inp : Nat → α) (outOfs i : Nat) : List (Access β) :=
  loadsU i N ++ loadsU (i + N) N ++
    storesU (orderedDemote2To demote N (vecU inp i) (vecU inp (i + N))) (outOfs + i) (2 * N)

/-- The tail of Compress at `i`: `LoadN` of `remaining` and of `remaining1` lanes, then a
full `StoreU` of the demoted pair. -/
def compressTail [Zero α] (N : Nat) (inp : Nat → α) (num outOfs i : Nat) : List (Access β) :=
  if num - i ≠ 0 then
    loadsN i N (num - i) ++ loadsN (i + N) N (num - i - min (num - i) (N / 2)) ++
      storesU (orderedDemote2To demote N (vecN inp i (num - i))
        (vecN inp (i + N) (num - i - min (num - i) (N / 2)))) (outOfs + i) (2 * N)
  else []

/-- `CompressTraits<hwy::bfloat16_t>::Compress(df, in, num, tls, out_capacity, out, out_ofs)`
with `N = hn::Lanes(df)`: the accesses it issues. The sticky-bit check only feeds a
commented-out warning and `COMPRESS_STATS` is 0, so neither shows here. -/
def compress [Zero α] (N : ℕ+) (inp : Nat → α) (num outOfs : Nat) : List (Access β) :=
  let r := if num ≥ 2 * N then mainLoop N num (compressBody demote N inp outOfs) 0 else (0, [])
  r.2 ++ compressTail demote N inp num outOfs r.1

theorem orderedDemote2To_vecU (N : Nat) (inp : Nat → α) (i : Nat) :
    orderedDemote2To demote N (vecU inp i) (vecU inp (i + N)) = fun m => demote (inp (i + m)) := by
  funext m
  by_cases h : m < N
  · simp [orderedDemote2To, h]
  · simp only [orderedDemote2To, h, if_false, vecU_apply]
    congr 2; omega

theorem storedAt_compressBody (N : Nat) (inp : Nat → α) (outOfs i k : Nat) :
    storedAt k (compressBody demote N inp outOfs i) =
      if outOfs + i ≤ k ∧ k < outOfs + i + 2 * N then [demote (inp (k - outOfs))] else [] := by
  rw [compressBody, storedAt_append, storedAt_append, storedAt_loadsU, storedAt_loadsU,
    orderedDemote2To_vecU, List.nil_append, List.nil_append]
  refine storedAt_storesU_eq (g := fun j => demote (inp (j - outOfs))) (fun j h1 _ => ?_) k
  simp only; congr 2; omega

theorem load_mem_compressBody {N : Nat} {inp : Nat → α} {outOfs i k : Nat} :
    (.load k : Access β) ∈ compressBody demote N inp outOfs i ↔ i ≤ k ∧ k < i + 2 * N := by
  simp only [compressBody, List.mem_append, load_mem_loadsU, load_not_mem_storesU, or_false]
  omega

/-- Lane `m < remaining` of the tail vector is the demoted input `in[i + m]`. -/
theorem tailLane_of_lt [Zero α] {N : Nat} {inp : Nat → α} {num i m : Nat} (hm : m < num - i) :
    orderedDemote2To demote N (vecN inp i (num - i))
      (vecN inp (i + N) (num - i - min (num - i) (N / 2))) m = demote (inp (i + m)) := by
  by_cases h : m < N
  · simp only [orderedDemote2To, h, if_true, vecN_of_lt inp hm]
  · simp only [orderedDemote2To, h, if_false]
    rw [vecN_of_lt inp (by omega)]
    congr 2; omega

theorem storedAt_compressTail [Zero α] (N : Nat) (inp : Nat → α) (num outOfs i k : Nat) :
    storedAt k (compressTail demote N inp num outOfs i) =
      if num - i ≠ 0 ∧ outOfs + i ≤ k ∧ k < outOfs + i + 2 * N then
        [orderedDemote2To demote N (vecN inp i (num - i))
          (vecN inp (i + N) (num - i - min (num - i) (N / 2))) (k - (outOfs + i))]
      else [] := by
  rw [compressTail]
  by_cases h : num - i ≠ 0
  · rw [if_pos h, storedAt_append, storedAt_append, storedAt_loadsN, storedAt_loadsN,
      storedAt_storesU]
    simp only [List.nil_append]
    by_cases hk : outOfs + i ≤ k ∧ k < outOfs + i + 2 * N
    · rw [if_pos hk, if_pos ⟨h, hk⟩]
    · rw [if_neg hk, if_neg (by tauto)]
  · rw [if_neg h, if_neg (by tauto)]; rfl

/-- What the main loop leaves for the tail: it stops at `num - num % (2 * N)`, loads below
that index, and stores `demote (in[k])` at `out_ofs + k` for every `k` below it. -/
theorem compress_mainLoop [Zero α] (N : ℕ+) (inp : Nat → α) (num outOfs : Nat) :
    let r := if num ≥ 2 * N then mainLoop N num (compressBody demote N inp outOfs) 0 else (0, [])
    r.1 = num - num % (2 * N) ∧ Elementwise r.2 0 outOfs r.1 fun k => demote (inp (k - outOfs)) :=
  guardedLoop_spec N num (compressBody demote N inp outOfs) 0 outOfs _
    (fun j k hk => by have := (load_mem_compressBody demote).mp hk; omega)
    (fun j k => storedAt_compressBody demote N inp outOfs j k)

/-- Every element of the range gets its demoted input, `out[out_ofs + k] = demote(in[k])`,
and no other store lands there. -/
theorem storedAt_compress_of_lt [Zero α] (N : ℕ+) (inp : Nat → α) {num : Nat} (outOfs : Nat)
    {k : Nat} (hk : k < num) :
    storedAt (outOfs + k) (compress demote N inp num outOfs) = [demote (inp k)] := by
  obtain ⟨he, -, hs⟩ := compress_mainLoop demote N inp num outOfs
  have hlt : num % (2 * N) < 2 * N := Nat.mod_lt _ (by have := N.pos; omega)
  rw [compress, storedAt_append, hs, storedAt_compressTail, he]
  by_cases hki : k < num - num % (2 * N)
  · rw [if_pos ⟨by omega, by omega⟩, if_neg (by omega)]
    simp
  · rw [if_neg (by omega), if_pos ⟨by omega, by omega, by omega⟩, tailLane_of_lt demote (by omega),
      List.nil_append]
    congr 3; omega

theorem compress_apply_of_lt [Zero α] (N : ℕ+) (inp : Nat → α) {num : Nat} (outOfs : Nat)
    (out : Nat → β) {k : Nat} (hk : k < num) :
    applyStores out (compress demote N inp num outOfs) (outOfs + k) = demote (inp k) := by
  rw [applyStores_apply, storedAt_compress_of_lt demote N inp outOfs hk]; rfl

/-- Compress stores nothing below `out_ofs`. -/
theorem le_of_store_mem_compress [Zero α] {N : ℕ+} {inp : Nat → α} {num outOfs k : Nat} {v : β}
    (hv : Access.store k v ∈ compress demote N inp num outOfs) : outOfs ≤ k := by
  have hne := storedAt_ne_nil_of_mem hv
  obtain ⟨-, -, hs⟩ := compress_mainLoop demote N inp num outOfs
  rw [compress, storedAt_append, hs, storedAt_compressTail] at hne
  by_contra hk
  rw [if_neg (by omega), if_neg (by omega)] at hne
  exact hne rfl

end Compress

section Decompress

variable (promote : β → α)

/-- `hn::PromoteLowerTo(df, v)`: the lower `N` lanes of a bf16 vector, promoted. -/
def promoteLowerTo (v : Nat → β) : Nat → α := fun j => promote (v j)

/-- `hn::PromoteUpperTo(df, v)`: the upper `N` lanes of a `2 * N`-lane bf16 vector. -/
def promoteUpperTo (N : Nat) (v : Nat → β) : Nat → α := fun j => promote (v (N + j))

/-- One iteration of the main loop of Decompress at `i`: `Decompress2(df, in, in_ofs + i, ...)`
and the stores of both halves, at `i` and at `i + N16 / 2 = i + N`. -/
def decompressBody (N : Nat) (inp : Nat → β) (inOfs i : Nat) : List (Access α) :=
  loadsU (inOfs + i) (2 * N) ++ storesU (promoteLowerTo promote (vecU inp (inOfs + i))) i N ++
    storesU (promoteUpperTo promote N (vecU inp (inOfs + i))) (i + N) N

/-- The tail of Decompress at `i`: one `LoadN` of `remaining` bf16 lanes, a `StoreN` of
`remaining` lanes of the lower half and of `remaining1` lanes of the upper half. -/
def decompressTail [Zero β] (N : Nat) (inp : Nat → β) (inOfs num i : Nat) : List (Access α) :=
  if num - i ≠ 0 then
    loadsN (inOfs + i) (2 * N) (num - i) ++
      storesN (promoteLowerTo promote (vecN inp (inOfs + i) (num - i))) i N (num - i) ++
      storesN (promoteUpperTo promote N (vecN inp (inOfs + i) (num - i))) (i + N) N
        (num - i - min (num - i) N)
  else []

/-- `CompressTraits<hwy::bfloat16_t>::Decompress(df, in_capacity, in, in_ofs, out, num)` with
`N = hn::Lanes(df)`: the accesses it issues. -/
def decompress [Zero β] (N : ℕ+) (inp : Nat → β) (inOfs num : Nat) : List (Access α) :=
  let r := if num ≥ 2 * N then mainLoop N num (decompressBody promote N inp inOfs) 0 else (0, [])
  r.2 ++ decompressTail promote N inp inOfs num r.1

theorem storedAt_decompressBody (N : Nat) (inp : Nat → β) (inOfs i k : Nat) :
    storedAt k (decompressBody promote N inp inOfs i) =
      if i ≤ k ∧ k < i + 2 * N then [promote (inp (inOfs + k))] else [] := by
  rw [decompressBody, storedAt_append, storedAt_append, storedAt_loadsU, List.nil_append,
    storedAt_storesU_eq (g := fun k => promote (inp (inOfs + k))) (fun k h _ => by
      simp only [promoteLowerTo, vecU_apply]; congr 2; omega),
    storedAt_storesU_eq (g := fun k => promote (inp (inOfs + k))) (fun k h _ => by
      simp only [promoteUpperTo, vecU_apply]; congr 2; omega),
    ite_range_append (by omega) (by omega)]
  simp only [Nat.add_assoc, ← Nat.two_mul]

theorem load_mem_decompressBody {N : Nat} {inp : Nat → β} {inOfs i k : Nat} :
    (.load k : Access α) ∈ decompressBody promote N inp inOfs i ↔
      inOfs + i ≤ k ∧ k < inOfs + i + 2 * N := by
  simp [decompressBody, load_mem_loadsU]

theorem storedAt_decompressTail [Zero β] {N : Nat} (inp : Nat → β) {inOfs num i : Nat}
    (hrem : num - i < 2 * N) (k : Nat) :
    storedAt k (decompressTail promote N inp inOfs num i) =
      if i ≤ k ∧ k < num then [promote (inp (inOfs + k))] else [] := by
  rw [decompressTail]
  by_cases h : num - i ≠ 0
  · obtain ⟨r, rfl⟩ : ∃ r, num = i + r := ⟨num - i, by omega⟩
    rw [Nat.add_sub_cancel_left] at h hrem ⊢
    have hlo : ∀ k, i ≤ k → k < i + min r N →
        promoteLowerTo promote (vecN inp (inOfs + i) r) (k - i) = promote (inp (inOfs + k)) :=
      fun k h1 h2 => by
        rw [promoteLowerTo, vecN_of_lt inp (by omega)]; congr 2; omega
    have hup : ∀ k, i + N ≤ k → k < i + N + min (r - min r N) N →
        promoteUpperTo promote N (vecN inp (inOfs + i) r) (k - (i + N)) =
          promote (inp (inOfs + k)) := fun k h1 h2 => by
      rw [promoteUpperTo, vecN_of_lt inp (by omega)]; congr 2; omega
    rw [if_pos h, storedAt_append, storedAt_append, storedAt_loadsN, storesN, storesN,
      storedAt_storesU_eq hlo, storedAt_storesU_eq hup, List.nil_append]
    by_cases hN : r ≤ N
    · rw [Nat.min_eq_left hN, Nat.sub_self, Nat.zero_min, Nat.add_zero,
        if_neg (show ¬(i + N ≤ k ∧ k < i + N) by omega), List.append_nil]
    · rw [Nat.min_eq_right (by omega), Nat.min_eq_left (show r - N ≤ N by omega),
        show i + N + (r - N) = i + r by omega, ite_range_append (by omega) (by omega)]
  · rw [if_neg h, if_neg (by omega)]; rfl

theorem load_mem_decompressTail [Zero β] {N : Nat} {inp : Nat → β} {inOfs num i k : Nat}
    (h : (.load k : Access α) ∈ decompressTail promote N inp inOfs num i) :
    inOfs + i ≤ k ∧ k < inOfs + num := by
  rw [decompressTail] at h
  split at h
  · simp only [loadsN, List.mem_append, load_mem_loadsU, storesN, load_not_mem_storesU,
      or_false] at h
    omega
  · simp at h

/-- Decompress stores `promote (in[in_ofs + k])` at every `k < num` and nothing elsewhere,
and loads only `[in_ofs, in_ofs + num)`. -/
theorem decompress_spec [Zero β] (N : ℕ+) (inp : Nat → β) (inOfs num : Nat) :
    Elementwise (decompress promote N inp inOfs num) inOfs 0 num
      fun k => promote (inp (inOfs + k)) := by
  obtain ⟨he, hl, hs⟩ := guardedLoop_spec N num (decompressBody promote N inp inOfs) inOfs 0
    (fun k => promote (inp (inOfs + k)))
    (fun j k hk => (load_mem_decompressBody promote).mp hk)
    (fun j k => by rw [storedAt_decompressBody, Nat.zero_add])
  have hlt : num % (2 * N) < 2 * N := Nat.mod_lt _ (by have := N.pos; omega)
  have hle : num % (2 * N) ≤ num := Nat.mod_le _ _
  refine ⟨fun k hk => ?_, fun k => ?_⟩
  · rcases List.mem_append.mp hk with hk | hk
    · have := hl k hk; omega
    · have := load_mem_decompressTail promote hk; omega
  · rw [decompress, storedAt_append, hs, he, storedAt_decompressTail promote inp (by omega)]
    simp only [Nat.zero_add]
    exact ite_range_append (Nat.zero_le _) (Nat.sub_le _ _)

theorem decompress_apply [Zero β] (N : ℕ+) (inp : Nat → β) (inOfs num : Nat) (out : Nat → α)
    (k : Nat) : applyStores out (decompress promote N inp inOfs num) k =
      if k < num then promote (inp (inOfs + k)) else out k := by
  rw [(decompress_spec promote N inp inOfs num).apply]
  exact ite_congr (propext (by omega)) (fun _ => rfl) (fun _ => rfl)

end Decompress

/-! ### Compress, then Decompress, and where Compress overruns its range -/

section RoundTrip

variable [Zero α] (demote : α → β)

/-- Decompressing the range that Compress wrote gives `promote (demote (in[k]))`. -/
theorem decompress_compress [Zero β] (promote : β → α) (N : ℕ+) (inp : Nat → α) (num outOfs : Nat) (out : Nat → β)
    (dout : Nat → α) {k : Nat} (hk : k < num) :
    applyStores dout (decompress promote N (applyStores out (compress demote N inp num outOfs))
      outOfs num) k = promote (demote (inp k)) := by
  rw [decompress_apply, if_pos hk, compress_apply_of_lt demote N inp outOfs out hk]

/-- Five elements on four lanes: the last one, handled by both tails, comes back. -/
theorem decompress_compress_five :
    4 < 5 ∧ applyStores (fun _ => 0) (decompress (fun b : Nat => b * 2) 4
      (applyStores (fun _ => 0) (compress (fun a : Nat => a + 1) 4 (fun k : Nat => k) 5 0)) 0 5)
      4 = 10 :=
  ⟨by decide, decompress_compress (fun a : Nat => a + 1) (fun b : Nat => b * 2) 4
    (fun k : Nat => k) 5 0 _ _ (by decide)⟩

theorem compress_eq (N : ℕ+) (inp : Nat → α) (num outOfs : Nat) :
    compress demote N inp num outOfs =
      (if num ≥ 2 * N then mainLoop N num (compressBody demote N inp outOfs) 0 else (0, [])).2 ++
        compressTail demote N inp num outOfs (num - num % (2 * N)) := by
  rw [compress, (compress_mainLoop demote N inp num outOfs).1]

/-- Unless `num` is a multiple of `2 * N`, Compress stores at `out_ofs + num`. -/
theorem compress_stores_past_end (N : ℕ+) (inp : Nat → α) (num outOfs : Nat)
    (h : num % (2 * N) ≠ 0) : ∃ v, Access.store (outOfs + num) v ∈ compress demote N inp num outOfs := by
  have hlt : num % (2 * N) < 2 * N := Nat.mod_lt _ (by have := N.pos; omega)
  have hle : num % (2 * N) ≤ num := Nat.mod_le _ _
  generalize hr : num % (2 * N) = r at h hlt hle
  rw [compress_eq, hr, compressTail, show num - (num - r) = r by omega, if_pos h]
  exact ⟨_, List.mem_append_right _ (List.mem_append_right _
    (store_mem_storesU.mpr ⟨by omega, by omega, rfl⟩))⟩

/-- Once more than `N / 2` elements are left for the tail, Compress loads past `in[num - 1]`. -/
theorem compress_loads_past_end (N : ℕ+) (inp : Nat → α) (num outOfs : Nat)
    (h : (N : Nat) / 2 < num % (2 * N)) :
    ∃ k, num ≤ k ∧ Access.load k ∈ compress demote N inp num outOfs := by
  have hlt : num % (2 * N) < 2 * N := Nat.mod_lt _ (by have := N.pos; omega)
  have hle : num % (2 * N) ≤ num := Nat.mod_le _ _
  generalize hr : num % (2 * N) = r at h hlt hle
  rw [compress_eq, hr, compressTail, show num - (num - r) = r by omega, if_pos (show r ≠ 0 by omega)]
  -- the second `LoadN` reads `m` lanes from `num - r + N`, the last of them at or past `num`
  generalize hm : min (r - min r (N / 2)) (N : Nat) = m
  have hm2 : 0 < m ∧ r < N + m := by omega
  refine ⟨num - r + N + m - 1, by omega,
    List.mem_append_right _ (List.mem_append_left _ (List.mem_append_right _ ?_))⟩
  rw [loadsN, hm, load_mem_loadsU]
  omega

/-- With `num` a multiple of `2 * N` there is no tail: Compress loads only `[0, num)` and
stores `demote (in[k])` at `out_ofs + k` for `k < num` and nowhere else. -/
theorem compress_spec_of_dvd (N : ℕ+) (inp : Nat → α) (num outOfs : Nat)
    (h : num % (2 * N) = 0) :
    Elementwise (compress demote N inp num outOfs) 0 outOfs num
      fun k => demote (inp (k - outOfs)) := by
  obtain ⟨he, hmain⟩ := compress_mainLoop demote N inp num outOfs
  rw [h, Nat.sub_zero] at he
  have htail : compressTail demote N inp num outOfs num = ([] : List (Access β)) := by
    rw [compressTail, if_neg (by omega)]
  rw [compress, he, htail, List.append_nil]
  rwa [he] at hmain

/-- With `num` a multiple of `2 * N`, Compress loads only `[0, num)` and stores only
`[out_ofs, out_ofs + num)`. -/
theorem compress_confined_of_dvd (N : ℕ+) (inp : Nat → α) (num outOfs : Nat)
    (h : num % (2 * N) = 0) :
    (∀ k, Access.load k ∈ compress demote N inp num outOfs → k < num) ∧
      ∀ k v, Access.store k v ∈ compress demote N inp num outOfs → outOfs ≤ k ∧ k < outOfs + num := by
  have hspec := compress_spec_of_dvd demote N inp num outOfs h
  exact ⟨fun k hk => by simpa using (hspec.1 k hk).2, fun k v hv => hspec.store_mem hv⟩

theorem compress_confined_of_dvd_eight :
    8 % (2 * ((4 : ℕ+) : Nat)) = 0 ∧
      ∀ k (v : Nat), Access.store k v ∈ compress (fun a : Nat => a) 4 (fun k : Nat => k) 8 3 →
        3 ≤ k ∧ k < 3 + 8 :=
  ⟨by decide, (compress_confined_of_dvd (fun a : Nat => a) 4 (fun k : Nat => k) 8 3 (by decide)).2⟩

end RoundTrip

/-- Four f32 lanes, five elements: the tail reads `in[5]` and `in[6]` and stores `out[5]`,
`out[6]` and `out[7]`, past the five elements of the range. -/
theorem compress_four_lanes_five_elements :
    Access.load 5 ∈ compress (β := Nat) id 4 (fun k : Nat => k) 5 0 ∧
      Access.load 6 ∈ compress (β := Nat) id 4 (fun k : Nat => k) 5 0 ∧
      Access.store 5 5 ∈ compress (β := Nat) id 4 (fun k : Nat => k) 5 0 ∧
      Access.store 7 0 ∈ compress (β := Nat) id 4 (fun k : Nat => k) 5 0 := by
  decide

end Bf16

end WeightCompression
