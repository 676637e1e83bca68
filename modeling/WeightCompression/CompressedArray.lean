import WeightCompression.Traits.F32
import WeightCompression.Traits.Bf16
import WeightCompression.Traits.Bf16Dot
import WeightCompression.Bulk

/-!
# `CompressedArray` and the array-level Decompress and Dot

A compressed array pairs its packed elements with one scale, `scale_[0]`. `Decompress`
of an array ignores the scale; `Dot` multiplies the codec's dot product by `scale()`.
`data_scale1()` reads a scale of 0 as "never set, implicitly 1", but `Dot` multiplies by
the stored value as it is, so the dot product of an array whose scale was never set is 0.
The codec's Dot adds whole vectors of the descriptor only, and so matches its Decompress
on the first `num / N * N` elements.

`Traits` is the part of `CompressTraits<MatT>` that these functions call, with the
instances for `float` and `hwy::bfloat16_t`.

The threaded Decompress splits the range into batches and runs them on the pool in any
order. For a bf16 array on any count, and for a float array on a count the float codec
accepts, every run leaves `out` as the unthreaded Decompress does.
-/

namespace WeightCompression

/-- `CompressedArray<MatT, kCapacity>`: the packed elements `data_` and `scale_[0]`, the
scale that `scale()` reads and `set_scale` writes. -/
structure CompressedArray (MatT α : Type) where
  data : Nat → MatT
  scale : α

namespace CompressedArray

variable {MatT α : Type}

/-- `set_scale(scale)`. -/
def setScale (c : CompressedArray MatT α) (s : α) : CompressedArray MatT α :=
  { c with scale := s }

/-- `data_scale1()`: `HWY_ASSERT(scale() == 1.f || scale() == 0.f)`, then the data; `none`
is the abort. -/
def dataScale1 [Zero α] [One α] [DecidableEq α] (c : CompressedArray MatT α) :
    Option (Nat → MatT) :=
  if c.scale = 1 ∨ c.scale = 0 then some c.data else none

@[simp] theorem setScale_scale (c : CompressedArray MatT α) (s : α) : (c.setScale s).scale = s :=
  rfl

@[simp] theorem setScale_data (c : CompressedArray MatT α) (s : α) : (c.setScale s).data = c.data :=
  rfl

end CompressedArray

/-- The entry points of `CompressTraits<MatT>` that the array functions call, for an f32
descriptor of `N` lanes: `Decompress(d, in_capacity, in, in_ofs, out, num)` and
`Dot(df, in_capacity, in, in_ofs, vec_aligned, num)`. -/
structure Traits (MatT α : Type) where
  decompress : ℕ+ → (Nat → MatT) → Nat → Nat → List (Access α)
  dot : ℕ+ → (Nat → MatT) → Nat → (Nat → α) → Nat → α

variable {MatT α β : Type}

/-- `CompressTraits<float>`. -/
def f32Traits [CommSemiring α] : Traits α α := ⟨F32.decompress, F32.dot⟩

/-- `CompressTraits<hwy::bfloat16_t>`, for an f32 query. -/
def bf16Traits [CommSemiring α] [Zero β] (promote : β → α) : Traits β α :=
  ⟨Bf16.decompress promote, Bf16.dot promote⟩

/-- `Decompress(compressed, compressed_ofs, out, num)`: the accesses to `out`. -/
def decompress (T : Traits MatT α) (N : ℕ+) (c : CompressedArray MatT α) (ofs num : Nat) :
    List (Access α) :=
  T.decompress N c.data ofs num

/-- `Dot<false>(df, compressed, compressed_ofs, vec_aligned, num)`:
`compressed.scale() * Traits::Dot(...)`. -/
def dot [Mul α] (T : Traits MatT α) (N : ℕ+) (c : CompressedArray MatT α) (ofs : Nat)
    (vec : Nat → α) (num : Nat) : α :=
  c.scale * T.dot N c.data ofs vec num

/-- `Dot<true>(df, compressed, compressed_ofs, vec_aligned, num)` on a bf16 array:
`compressed.scale() * Traits::DotEO(...)`. -/
def dotEO [CommSemiring α] (promote : β → α) (L : ℕ+) (c : CompressedArray β α) (ofs : Nat)
    (vec : Nat → α) (num : Nat) : α :=
  c.scale * Bf16.dotEO promote L c.data ofs vec num

/-- The codec's dot product is the dot product of what its Decompress writes, over the
`num / N` whole vectors of the range: the last `num % N` elements are not added. -/
def Traits.DotMatchesDecompress [CommSemiring α] (T : Traits MatT α) : Prop :=
  ∀ (N : ℕ+) data ofs vec num (out : Nat → α),
    T.dot N data ofs vec num =
      ∑ k ∈ Finset.range (num / N * N), applyStores out (T.decompress N data ofs num) k * vec k

theorem lt_of_mem_range_div_mul {N num k : Nat} (hk : k ∈ Finset.range (num / N * N)) :
    k < num :=
  lt_of_lt_of_le (Finset.mem_range.mp hk) (Nat.div_mul_le_self num N)

theorem f32Traits_dotMatchesDecompress [CommSemiring α] :
    (f32Traits (α := α)).DotMatchesDecompress := by
  intro N data ofs vec num out
  simp only [f32Traits, F32.dot, dotCompute]
  exact Finset.sum_congr rfl fun k hk => by
    rw [F32.decompress_apply_of_lt N data ofs out (lt_of_mem_range_div_mul hk)]

theorem bf16Traits_dotMatchesDecompress [CommSemiring α] [Zero β] (promote : β → α) :
    (bf16Traits promote).DotMatchesDecompress := by
  intro N data ofs vec num out
  simp only [bf16Traits, Bf16.dot, dotCompute]
  exact Finset.sum_congr rfl fun k hk => by
    rw [Bf16.decompress_apply, if_pos (lt_of_mem_range_div_mul hk), mul_comm]

/-- An f32 array whose scale was never set, on four lanes and two whole vectors:
`data_scale1()` takes it as scale 1, Dot returns 0, and the decompressed slice times the
query is 8. -/
theorem dot_unset_scale_four_lanes :
    (⟨fun _ => 1, 0⟩ : CompressedArray ℤ ℤ).dataScale1 = some (fun _ => 1) ∧
      dot f32Traits 4 ⟨fun _ => (1 : ℤ), 0⟩ 0 (fun _ => 1) 8 = 0 ∧
      ∑ k ∈ Finset.range 8,
        applyStores (fun _ => 0) (decompress f32Traits 4 ⟨fun _ => (1 : ℤ), 0⟩ 0 8) k * 1 = 8 := by
  refine ⟨by simp [CompressedArray.dataScale1], by simp [dot], ?_⟩
  rw [Finset.sum_congr rfl fun k hk =>
    by rw [decompress, f32Traits, F32.decompress_apply_of_lt 4 _ 0 _ (Finset.mem_range.mp hk)]]
  simp

/-! ### The threaded Decompress against the unthreaded one -/

/-- `Decompress(compressed, compressed_ofs, out, num, pool)`, the overload "with threading":
task `t` of `pool.Run(0, num_batches, ...)` calls the codec's Decompress on batch `t`, to
`out + ofs`. -/
def decompressThreaded (T : Traits MatT α) (N : ℕ+) (c : CompressedArray MatT α) (ofs num : Nat) :
    Nat → List (Access α) :=
  decompressTask (decompressCall (T.decompress N)) c.data num ofs

/-- The threaded Decompress of a bf16 array agrees with the unthreaded one on every count:
whatever order the pool runs the batches in, `out` ends as one `Traits::Decompress` call on
the whole range leaves it. -/
theorem decompressThreaded_bf16_eq [CommSemiring α] [Zero β] (promote : β → α) (N : ℕ+)
    {num : Nat} (h : num < 2 ^ 45) (c : CompressedArray β α) (ofs : Nat)
    {run : List (Nat × Access α)}
    (hrun : IsPoolRun (decompressThreaded (bf16Traits promote) N c ofs num) (numBatches num) run)
    (out : Nat → α) :
    applyStores out (run.map Prod.snd) =
      applyStores out (decompress (bf16Traits promote) N c ofs num) :=
  (poolRun_spec h (batchSpec_decompress_bf16 promote N c.data ofs) hrun).applyStores_eq
    (Bf16.decompress_spec promote N c.data ofs num) out

theorem decompressThreaded_bf16_eq_five :
    (5 : Nat) < 2 ^ 45 ∧
      applyStores (fun _ => 0) ((sequentialRun (decompressThreaded (bf16Traits fun b : ℤ => b + 1)
        4 ⟨fun k => (k : ℤ), 1⟩ 0 5) (numBatches 5)).map Prod.snd) =
      applyStores (fun _ => 0) (decompress (bf16Traits fun b : ℤ => b + 1) 4 ⟨fun k => (k : ℤ), 1⟩ 0 5) :=
  ⟨by omega, decompressThreaded_bf16_eq _ 4 (by omega) _ 0 (isPoolRun_sequentialRun _ _) _⟩

/-- The threaded Decompress of a float array agrees with the unthreaded one on every count the
float codec accepts for the whole range. -/
theorem decompressThreaded_f32_eq [CommSemiring α] (d : F32Lanes) {num : Nat} (h : num < 2 ^ 45)
    (ha : F32Aligned d.n num) (c : CompressedArray α α) (ofs : Nat) {run : List (Nat × Access α)}
    (hrun : IsPoolRun (decompressThreaded f32Traits d.lanes c ofs num) (numBatches num) run)
    (out : Nat → α) :
    applyStores out (run.map Prod.snd) = applyStores out (decompress f32Traits d.lanes c ofs num) :=
  (poolRun_spec h (batchSpec_decompress_f32 h d ha c.data ofs) hrun).applyStores_eq
    (F32.decompress_spec_of_dvd d.lanes c.data ofs num ha.2) out

theorem decompressThreaded_f32_eq_eight :
    (8 : Nat) < 2 ^ 45 ∧ F32Aligned (⟨1, by decide⟩ : F32Lanes).n 8 ∧
      applyStores (fun _ => 0) ((sequentialRun (decompressThreaded f32Traits
        (⟨1, by decide⟩ : F32Lanes).lanes ⟨fun k => (k : ℤ), 1⟩ 0 8) (numBatches 8)).map Prod.snd) =
      applyStores (fun _ => 0) (decompress f32Traits (⟨1, by decide⟩ : F32Lanes).lanes
        ⟨fun k => (k : ℤ), 1⟩ 0 8) :=
  ⟨by omega, ⟨by decide, by decide⟩,
    decompressThreaded_f32_eq _ (by omega) ⟨by decide, by decide⟩ _ 0 (isPoolRun_sequentialRun _ _) _⟩

end WeightCompression
