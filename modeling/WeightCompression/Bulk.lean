import WeightCompression.Batches
import WeightCompression.Traits.F32
import WeightCompression.Traits.Bf16

/-!
# The bulk Compress and the threaded Decompress, end to end

Each task of the bulk functions calls the codec on its own batch through shifted pointers:
the bulk Compress passes `in + in_ofs`, the threaded Decompress `out + ofs`.
`compressCall` and `decompressCall` put the accesses of such a call at the buffers' own
positions.

`Elementwise` is what a codec call is for: it reads a range and writes one value at each
position of another. `BatchSpec` says that the call of every batch is elementwise on that
batch; then every run of the pool is elementwise on the whole range, as one call on the
whole range would be (`poolRun_spec`). The float codec on an aligned count, the
bf16 Decompress on any count and the bf16 Compress on a multiple of `2 * N` meet it.
`bulk_batches_partition_and_commute` collects what the batching itself guarantees. On
any other count the last batch of the bulk Compress to bf16 has a tail, and every run
stores past `out_ofs + num`.
-/

namespace WeightCompression

variable {α β : Type}

/-- A codec's `Compress(df, in, num, tls, out_capacity, out, out_ofs)` as a task of the bulk
Compress calls it, on `in + in_ofs`. -/
def compressCall (compress : (Nat → α) → Nat → Nat → List (Access β)) : Codec α β :=
  fun inp inOfs num outOfs =>
    (compress (fun j => inp (inOfs + j)) num outOfs).map (Access.shift inOfs 0)

/-- A codec's `Decompress(d, in_capacity, in, in_ofs, out, num)` as a task of the threaded
Decompress calls it, on `out + ofs`. -/
def decompressCall (decompress : (Nat → α) → Nat → Nat → List (Access β)) : Codec α β :=
  fun data inOfs num ofs => (decompress data inOfs num).map (Access.shift 0 ofs)

/-- The lane count of the descriptor, as the codecs take it. -/
def F32Lanes.lanes (d : F32Lanes) : ℕ+ := ⟨d.n, Nat.two_pow_pos d.log2⟩

/-- The call of every batch `t` is elementwise on the batch: it loads inside `lo` plus the
batch, and stores `g k` at each position `k` of `base` plus the batch and nowhere else. -/
def BatchSpec (trace : Nat → List (Access β)) (lo base : Nat) (g : Nat → β) (num : Nat) :
    Prop :=
  ∀ t < numBatches num,
    Elementwise (trace t) (lo + batchOfs t) (base + batchOfs t) (batchNum num t) g

/-! ### Every run of the pool under a batch spec -/

section PoolRun

variable {num lo base : Nat} {trace : Nat → List (Access β)} {g : Nat → β}
  {run : List (Nat × Access β)}

theorem storedAt_poolRun_of_batchSpec (h : num < 2 ^ 45) (hspec : BatchSpec trace lo base g num)
    (hrun : IsPoolRun trace (numBatches num) run) (k : Nat) :
    storedAt k (run.map Prod.snd) = if base ≤ k ∧ k < base + num then [g k] else [] := by
  have inBatch : ∀ s < numBatches num, ∀ v, .store k v ∈ trace s →
      base ≤ k ∧ InBatch num s (k - base) := fun s hs v hv => by
    have := (hspec s hs).store_mem hv
    unfold InBatch
    omega
  by_cases hk : base ≤ k ∧ k < base + num
  · obtain ⟨t, ht, hkt⟩ := (batch_cover h (k - base)).mp (by omega)
    rw [storedAt_poolRun_owner hrun ht fun s hs hst v hv =>
        hst (batch_disjoint h s t _ hs ht (inBatch s hs v hv).2 hkt),
      (hspec t ht).2, if_pos hk, if_pos (by unfold InBatch at hkt; omega)]
  · rw [if_neg hk, storedAt_poolRun_eq_nil hrun fun s hs v hv => hk ?_]
    obtain ⟨hbk, hks⟩ := inBatch s hs v hv
    have := (batch_cover h _).mpr ⟨s, hs, hks⟩
    omega

theorem load_mem_poolRun_of_batchSpec (h : num < 2 ^ 45) (hspec : BatchSpec trace lo base g num)
    (hrun : IsPoolRun trace (numBatches num) run) {k : Nat}
    (hk : .load k ∈ run.map Prod.snd) : lo ≤ k ∧ k < lo + num := by
  obtain ⟨⟨s, e⟩, hm, he⟩ := List.mem_map.mp hk
  obtain ⟨hs, hmem⟩ := mem_trace_of_mem_run hrun hm
  have hb := (hspec s hs).1 k (he ▸ hmem)
  have := (batch_cover h (k - lo)).mpr ⟨s, hs, by unfold InBatch; omega⟩
  omega

/-- When every batch call is elementwise on its batch, every run of the pool is elementwise
on the whole range: it does what one call on `[0, num)` does. -/
theorem poolRun_spec (h : num < 2 ^ 45) (hspec : BatchSpec trace lo base g num)
    (hrun : IsPoolRun trace (numBatches num) run) : Elementwise (run.map Prod.snd) lo base num g :=
  ⟨fun _ hk => load_mem_poolRun_of_batchSpec h hspec hrun hk,
    storedAt_poolRun_of_batchSpec h hspec hrun⟩

end PoolRun

/-! ### The codecs meet the batch spec -/

section Codecs

variable {num : Nat}

/-- A Compress that is elementwise on the count of every batch meets the batch spec in the
bulk Compress. -/
theorem batchSpec_compressCall {compress : (Nat → α) → Nat → Nat → List (Access β)}
    (enc : α → β) (inp : Nat → α) (outOfs : Nat)
    (hc : ∀ t < numBatches num, ∀ inp' outOfs', Elementwise (compress inp' (batchNum num t) outOfs')
      0 outOfs' (batchNum num t) fun k => enc (inp' (k - outOfs'))) :
    BatchSpec (compressTask (compressCall compress) inp num outOfs) 0 outOfs
      (fun k => enc (inp (k - outOfs))) num := fun t ht =>
  ((hc t ht (fun j => inp (batchOfs t + j)) (outOfs + batchOfs t)).map_shift (batchOfs t) 0).congr
    (by omega) (by omega) fun k h1 _ => by congr 2; omega

/-- A Decompress that is elementwise on the count of every batch meets the batch spec in the
threaded Decompress. -/
theorem batchSpec_decompressCall {decompress : (Nat → α) → Nat → Nat → List (Access β)}
    (dec : α → β) (data : Nat → α) (compressedOfs : Nat)
    (hd : ∀ t < numBatches num, ∀ inOfs, Elementwise (decompress data inOfs (batchNum num t))
      inOfs 0 (batchNum num t) fun k => dec (data (inOfs + k))) :
    BatchSpec (decompressTask (decompressCall decompress) data num compressedOfs)
      compressedOfs 0 (fun k => dec (data (compressedOfs + k))) num := fun t ht =>
  ((hd t ht (compressedOfs + batchOfs t)).map_shift 0 (batchOfs t)).congr
    (by omega) (by omega) fun k h1 _ => by congr 2; omega

theorem batchSpec_compress_f32 (h : num < 2 ^ 45) (d : F32Lanes) (ha : F32Aligned d.n num)
    (inp : Nat → α) (outOfs : Nat) :
    BatchSpec (compressTask (compressCall (F32.compress d.lanes)) inp num outOfs) 0 outOfs
      (fun k => inp (k - outOfs)) num :=
  batchSpec_compressCall id inp outOfs fun t ht inp' outOfs' =>
    F32.compress_spec_of_dvd d.lanes inp' _ outOfs' (batch_f32Aligned h d ha t ht).2

theorem batchSpec_decompress_f32 (h : num < 2 ^ 45) (d : F32Lanes) (ha : F32Aligned d.n num)
    (data : Nat → α) (compressedOfs : Nat) :
    BatchSpec (decompressTask (decompressCall (F32.decompress d.lanes)) data num compressedOfs)
      compressedOfs 0 (fun k => data (compressedOfs + k)) num :=
  batchSpec_decompressCall id data compressedOfs fun t ht inOfs =>
    F32.decompress_spec_of_dvd d.lanes data inOfs _ (batch_f32Aligned h d ha t ht).2

theorem batchSpec_decompress_bf16 [Zero β] (promote : β → α) (N : ℕ+) (data : Nat → β)
    (compressedOfs : Nat) :
    BatchSpec (decompressTask (decompressCall (Bf16.decompress promote N)) data num compressedOfs)
      compressedOfs 0 (fun k => promote (data (compressedOfs + k))) num :=
  batchSpec_decompressCall promote data compressedOfs fun _ _ inOfs =>
    Bf16.decompress_spec promote N data inOfs _

theorem batchSpec_compress_bf16 [Zero α] (demote : α → β) (h : num < 2 ^ 45) (d : F32Lanes)
    (ha : num % (2 * d.n) = 0) (inp : Nat → α) (outOfs : Nat) :
    BatchSpec (compressTask (compressCall (Bf16.compress demote d.lanes)) inp num outOfs) 0 outOfs
      (fun k => demote (inp (k - outOfs))) num :=
  batchSpec_compressCall demote inp outOfs fun _ ht inp' outOfs' =>
    Bf16.compress_spec_of_dvd demote d.lanes inp' _ outOfs' (Nat.mod_eq_zero_of_dvd
      (batchNum_dvd h ht d.two_mul_dvd_kBatch (Nat.dvd_of_mod_eq_zero ha)))

/-- A Compress that stores only inside its own output range on `n` elements does so as a
task of the bulk Compress calls it. -/
theorem callWritesOwn_compressCall {compress : (Nat → α) → Nat → Nat → List (Access β)} {n : Nat}
    (hc : ∀ inp outOfs k v, .store k v ∈ compress inp n outOfs → outOfs ≤ k ∧ k < outOfs + n) :
    CallWritesOwn (compressCall compress) id n := fun _ _ _ _ _ hv =>
  hc _ _ _ _ (by simpa using (store_mem_map_shift.mp hv).2)

/-- Under the float codec's assertion on the whole call, the call of every batch of the bulk
Compress stores only inside its own window. -/
theorem callWritesOwn_compress_f32 (h : num < 2 ^ 45) (d : F32Lanes) (ha : F32Aligned d.n num) :
    ∀ t < numBatches num, CallWritesOwn (compressCall (F32.compress (α := α) d.lanes)) id
      (batchNum num t) := fun t ht =>
  callWritesOwn_compressCall fun inp outOfs _ _ hv =>
    (F32.compress_spec_of_dvd d.lanes inp _ outOfs (batch_f32Aligned h d ha t ht).2).store_mem hv

end Codecs

/-! ### The batches, and every run of the pool -/

/-- The bulk Compress and the threaded Decompress below `2 ^ 45` elements. The code's
`size_t` and `uint32_t` arithmetic is exact; the batches are nonempty, pairwise disjoint
and cover `[0, num)`; each batch inherits the float or NUQ alignment of the whole call;
when every batch call writes only its own output range, every run of the pool leaves the
output buffer as the batches run one after another in index order; and the closures hand
every call the window of its batch, so a codec call that writes only its own window on
each batch's count gives batch calls that write only their own ranges. -/
theorem bulk_batches_partition_and_commute (num : Nat) (h : num < 2 ^ 45) :
    numBatches num = (num + kBatch - 1) / kBatch ∧
    (∀ t < numBatches num, batchOfs t = kBatch * t ∧
      batchNum num t = if t = numBatches num - 1 then num - kBatch * t else kBatch) ∧
    (∀ t < numBatches num, 0 < batchNum num t) ∧
    (∀ s t k, s < numBatches num → t < numBatches num → InBatch num s k → InBatch num t k →
      s = t) ∧
    (∀ k, k < num ↔ ∃ t < numBatches num, InBatch num t k) ∧
    (∀ d : F32Lanes, F32Aligned d.n num →
      ∀ t < numBatches num, F32Aligned d.n (batchNum num t)) ∧
    (∀ base, NuqAligned num base →
      ∀ t < numBatches num, NuqAligned (batchNum num t) (base + batchOfs t)) ∧
    (∀ (call : Codec α β) (inp : Nat → α) (outOfs : Nat) (layout : Nat → Nat), Monotone layout →
      BatchWritesOwn (compressTask call inp num outOfs) layout num outOfs →
      ∀ run, IsPoolRun (compressTask call inp num outOfs) (numBatches num) run → ∀ out,
        applyStores out (run.map Prod.snd) =
          applyStores out ((List.range (numBatches num)).flatMap (compressTask call inp num outOfs))) ∧
    (∀ (call : Codec α β) (data : Nat → α) (compressedOfs : Nat),
      BatchWritesOwn (decompressTask call data num compressedOfs) id num 0 →
      ∀ run, IsPoolRun (decompressTask call data num compressedOfs) (numBatches num) run → ∀ out,
        applyStores out (run.map Prod.snd) =
          applyStores out
            ((List.range (numBatches num)).flatMap (decompressTask call data num compressedOfs))) ∧
    (∀ (call : Codec α β) (layout : Nat → Nat),
      (∀ t < numBatches num, CallWritesOwn call layout (batchNum num t)) →
      ∀ inp outOfs, BatchWritesOwn (compressTask call inp num outOfs) layout num outOfs) ∧
    (∀ call : Codec α β, (∀ t < numBatches num, CallWritesOwn call id (batchNum num t)) →
      ∀ data compressedOfs, BatchWritesOwn (decompressTask call data num compressedOfs) id num 0) :=
  ⟨numBatches_eq h, fun _ ht => ⟨batchOfs_eq h ht, batchNum_eq h ht⟩, batch_nonempty h,
    batch_disjoint h, batch_cover h, batch_f32Aligned h, batch_nuqAligned h,
    fun _ _ _ _ hmono hw _ hrun out => poolRun_eq_sequential h hmono hw hrun out,
    fun _ _ _ hw _ hrun out => poolRun_eq_sequential h monotone_id hw hrun out,
    fun _ _ hc => batchWritesOwn_compressTask hc, fun _ hc => batchWritesOwn_decompressTask hc⟩

/-- Twenty thousand elements make two full batches and a last one of 3616. The float
Compress on two lanes writes only its own window on each batch, so every run of the pool
of the bulk Compress leaves `out` as the batches in index order do. -/
theorem bulk_batches_twenty_thousand :
    (20000 : Nat) < 2 ^ 45 ∧ numBatches 20000 = 3 ∧ batchNum 20000 2 = 3616 ∧
      (∀ t < numBatches 20000, CallWritesOwn (compressCall
        (F32.compress (α := ℤ) (⟨1, by decide⟩ : F32Lanes).lanes)) id (batchNum 20000 t)) ∧
      ∀ run, IsPoolRun (compressTask (compressCall (F32.compress (⟨1, by decide⟩ : F32Lanes).lanes))
          (fun k : Nat => (k : ℤ)) 20000 0) (numBatches 20000) run → ∀ out,
        applyStores out (run.map Prod.snd) =
          applyStores out ((List.range (numBatches 20000)).flatMap (compressTask
            (compressCall (F32.compress (⟨1, by decide⟩ : F32Lanes).lanes)) (fun k : Nat => (k : ℤ))
            20000 0)) := by
  obtain ⟨hnb, hshape, -, -, -, -, -, hcomm, -, hown, -⟩ :=
    bulk_batches_partition_and_commute (α := ℤ) (β := ℤ) 20000 (by omega)
  have h3 : numBatches 20000 = 3 := by rw [hnb]; rfl
  have hcall := callWritesOwn_compress_f32 (α := ℤ) (show 20000 < 2 ^ 45 by omega)
    ⟨1, by decide⟩ ⟨by decide, by decide⟩
  refine ⟨by omega, h3, ?_, hcall, hcomm _ _ 0 id monotone_id (hown _ id hcall _ 0)⟩
  rw [(hshape 2 (by omega)).2, h3]
  rfl

/-- The last batch ends at `num`, and its count has the remainder of `num` modulo every
divisor of `kBatch`. -/
theorem lastBatch_spec {num m : Nat} (h : num < 2 ^ 45) (hnum : 0 < num) (hm : m ∣ kBatch) :
    numBatches num - 1 < numBatches num ∧
      batchOfs (numBatches num - 1) + batchNum num (numBatches num - 1) = num ∧
      batchNum num (numBatches num - 1) % m = num % m := by
  have hb := numBatches_eq h
  have ht : numBatches num - 1 < numBatches num := by rw [hb]; simp only [kBatch]; omega
  have hofs : kBatch * (numBatches num - 1) ≤ num := by rw [hb]; simp only [kBatch]; omega
  rw [batchOfs_eq h ht, batchNum_eq h ht, if_pos rfl]
  refine ⟨ht, by omega, ?_⟩
  obtain ⟨c, hc⟩ := hm
  rw [hc, Nat.mul_assoc] at hofs ⊢
  exact Nat.sub_mul_mod hofs

/-! ### The bulk entry points -/

section Entry

variable {num : Nat}

/-- The bulk Compress to `float`, under the float codec's assertion on the whole call: in
every run of the pool it reads only `in[0, num)`, sets `out[out_ofs + k] = in[k]` for each
`k < num` and leaves the rest of `out` as it was. -/
theorem bulkCompress_f32 (d : F32Lanes) (h : num < 2 ^ 45) (ha : F32Aligned d.n num)
    (inp : Nat → α) (outOfs : Nat) {run : List (Nat × Access α)}
    (hrun : IsPoolRun (compressTask (compressCall (F32.compress d.lanes)) inp num outOfs)
      (numBatches num) run) :
    (∀ k, .load k ∈ run.map Prod.snd → k < num) ∧
      ∀ out k, applyStores out (run.map Prod.snd) k =
        if outOfs ≤ k ∧ k < outOfs + num then inp (k - outOfs) else out k := by
  have hel := poolRun_spec h (batchSpec_compress_f32 h d ha inp outOfs) hrun
  exact ⟨fun k hk => by simpa using (hel.1 k hk).2, hel.apply⟩

/-- Two batches of four-lane float vectors: element 9000, in the second batch, lands at
`out[9000]`. -/
theorem bulkCompress_f32_two_batches :
    (16384 : Nat) < 2 ^ 45 ∧ F32Aligned (⟨2, by decide⟩ : F32Lanes).n 16384 ∧
      applyStores (fun _ => 0) ((sequentialRun (compressTask (compressCall
        (F32.compress (⟨2, by decide⟩ : F32Lanes).lanes)) (fun k : Nat => k) 16384 0)
        (numBatches 16384)).map Prod.snd) 9000 = 9000 :=
  ⟨by omega, ⟨by decide, by decide⟩, by
    rw [(bulkCompress_f32 ⟨2, by decide⟩ (by omega) ⟨by decide, by decide⟩ (fun k : Nat => k) 0
      (isPoolRun_sequentialRun _ _)).2]
    rfl⟩

/-- The threaded Decompress of a float array, under the codec's assertion on the whole call:
in every run of the pool it reads only `compressed[compressed_ofs, compressed_ofs + num)`,
sets `out[k]` to `compressed[compressed_ofs + k]` for each `k < num` and leaves the rest of
`out` as it was. -/
theorem bulkDecompress_f32 (d : F32Lanes) (h : num < 2 ^ 45) (ha : F32Aligned d.n num)
    (data : Nat → α) (compressedOfs : Nat) {run : List (Nat × Access α)}
    (hrun : IsPoolRun (decompressTask (decompressCall (F32.decompress d.lanes)) data num
      compressedOfs) (numBatches num) run) :
    (∀ k, .load k ∈ run.map Prod.snd → compressedOfs ≤ k ∧ k < compressedOfs + num) ∧
      ∀ out k, applyStores out (run.map Prod.snd) k =
        if k < num then data (compressedOfs + k) else out k := by
  have hel := poolRun_spec h (batchSpec_decompress_f32 h d ha data compressedOfs) hrun
  exact ⟨hel.1, fun out k => by simpa using hel.apply out k⟩

theorem bulkDecompress_f32_two_batches :
    (16384 : Nat) < 2 ^ 45 ∧ F32Aligned (⟨2, by decide⟩ : F32Lanes).n 16384 ∧
      applyStores (fun _ => 0) ((sequentialRun (decompressTask (decompressCall
        (F32.decompress (⟨2, by decide⟩ : F32Lanes).lanes)) (fun k : Nat => k) 16384 100)
        (numBatches 16384)).map Prod.snd) 9000 = 9100 :=
  ⟨by omega, ⟨by decide, by decide⟩, by
    rw [(bulkDecompress_f32 ⟨2, by decide⟩ (by omega) ⟨by decide, by decide⟩ (fun k : Nat => k) 100
      (isPoolRun_sequentialRun _ _)).2]
    rfl⟩

/-- The threaded Decompress of a bf16 array, for any count: in every run of the pool it
reads only `compressed[compressed_ofs, compressed_ofs + num)`, sets `out[k]` to
`promote(compressed[compressed_ofs + k])` for each `k < num` and leaves the rest of `out` as
it was. -/
theorem bulkDecompress_bf16 [Zero β] (promote : β → α) (N : ℕ+) (h : num < 2 ^ 45)
    (data : Nat → β) (compressedOfs : Nat) {run : List (Nat × Access α)}
    (hrun : IsPoolRun (decompressTask (decompressCall (Bf16.decompress promote N)) data num
      compressedOfs) (numBatches num) run) :
    (∀ k, .load k ∈ run.map Prod.snd → compressedOfs ≤ k ∧ k < compressedOfs + num) ∧
      ∀ out k, applyStores out (run.map Prod.snd) k =
        if k < num then promote (data (compressedOfs + k)) else out k := by
  have hel := poolRun_spec h (batchSpec_decompress_bf16 promote N data compressedOfs) hrun
  exact ⟨hel.1, fun out k => by simpa using hel.apply out k⟩

theorem bulkDecompress_bf16_two_batches :
    (16385 : Nat) < 2 ^ 45 ∧
      applyStores (fun _ => 0) ((sequentialRun (decompressTask (decompressCall
        (Bf16.decompress (fun b : Nat => b + 1) 4)) (fun k : Nat => k) 16385 0)
        (numBatches 16385)).map Prod.snd) 16384 = 16385 :=
  ⟨by omega, by
    rw [(bulkDecompress_bf16 (fun b : Nat => b + 1) 4 (by omega) (fun k : Nat => k) 0
      (isPoolRun_sequentialRun _ _)).2]
    rfl⟩

/-- The bulk Compress to bf16 of a multiple of `2 * N` elements: in every run of the pool it
reads only `in[0, num)`, sets `out[out_ofs + k] = demote(in[k])` for each `k < num` and
leaves the rest of `out` as it was. -/
theorem bulkCompress_bf16_of_dvd [Zero α] (demote : α → β) (d : F32Lanes) (h : num < 2 ^ 45)
    (ha : num % (2 * d.n) = 0) (inp : Nat → α) (outOfs : Nat) {run : List (Nat × Access β)}
    (hrun : IsPoolRun (compressTask (compressCall (Bf16.compress demote d.lanes)) inp num outOfs)
      (numBatches num) run) :
    (∀ k, .load k ∈ run.map Prod.snd → k < num) ∧
      ∀ out k, applyStores out (run.map Prod.snd) k =
        if outOfs ≤ k ∧ k < outOfs + num then demote (inp (k - outOfs)) else out k := by
  have hel := poolRun_spec h (batchSpec_compress_bf16 demote h d ha inp outOfs) hrun
  exact ⟨fun k hk => by simpa using (hel.1 k hk).2, hel.apply⟩

theorem bulkCompress_bf16_of_dvd_two_batches :
    (16384 : Nat) < 2 ^ 45 ∧ 16384 % (2 * (⟨2, by decide⟩ : F32Lanes).n) = 0 ∧
      applyStores (fun _ => 0) ((sequentialRun (compressTask (compressCall
        (Bf16.compress (fun a : Nat => a + 1) (⟨2, by decide⟩ : F32Lanes).lanes))
        (fun k : Nat => k) 16384 0) (numBatches 16384)).map Prod.snd) 9000 = 9001 :=
  ⟨by omega, by decide, by
    rw [(bulkCompress_bf16_of_dvd (fun a : Nat => a + 1) ⟨2, by decide⟩ (by omega) (by decide)
      (fun k : Nat => k) 0 (isPoolRun_sequentialRun _ _)).2]
    rfl⟩

/-- On any other count the bulk Compress to bf16 overruns its range in every run of the
pool: the tail of the last batch stores at `out_ofs + num`, and once more than `N / 2`
elements are left past the last multiple of `2 * N` it also reads `in[k]` for a `k ≥ num`. -/
theorem bulkCompress_bf16_overruns [Zero α] (demote : α → β) (d : F32Lanes) (h : num < 2 ^ 45)
    (inp : Nat → α) (outOfs : Nat) {run : List (Nat × Access β)}
    (hrun : IsPoolRun (compressTask (compressCall (Bf16.compress demote d.lanes)) inp num outOfs)
      (numBatches num) run) :
    (num % (2 * d.n) ≠ 0 → ∃ v, .store (outOfs + num) v ∈ run.map Prod.snd) ∧
      (d.n / 2 < num % (2 * d.n) → ∃ k, num ≤ k ∧ .load k ∈ run.map Prod.snd) := by
  have last : num % (2 * d.n) ≠ 0 → _ := fun hne =>
    lastBatch_spec h (Nat.pos_of_ne_zero fun h0 => hne (by rw [h0, Nat.zero_mod]))
      d.two_mul_dvd_kBatch
  constructor
  · intro hne
    obtain ⟨ht, hend, hmod⟩ := last hne
    obtain ⟨v, hv⟩ := Bf16.compress_stores_past_end demote d.lanes
      (fun j => inp (batchOfs (numBatches num - 1) + j)) (batchNum num (numBatches num - 1))
      (outOfs + batchOfs (numBatches num - 1))
      (show batchNum num _ % (2 * d.n) ≠ 0 by rw [hmod]; exact hne)
    refine ⟨v, mem_run_of_mem_trace hrun ht ?_⟩
    have hv' := List.mem_map_of_mem (Access.shift (batchOfs (numBatches num - 1)) 0) hv
    rwa [Access.shift, Nat.zero_add, Nat.add_assoc, hend] at hv'
  · intro hlt
    obtain ⟨ht, hend, hmod⟩ := last (by omega)
    obtain ⟨k, hk, hmem⟩ := Bf16.compress_loads_past_end demote d.lanes
      (fun j => inp (batchOfs (numBatches num - 1) + j)) (batchNum num (numBatches num - 1))
      (outOfs + batchOfs (numBatches num - 1))
      (show d.n / 2 < batchNum num _ % (2 * d.n) by rw [hmod]; exact hlt)
    refine ⟨batchOfs (numBatches num - 1) + k, by omega, mem_run_of_mem_trace hrun ht ?_⟩
    exact List.mem_map_of_mem (Access.shift (batchOfs (numBatches num - 1)) 0) hmem

/-- Five elements on four lanes: the bulk Compress to bf16 writes `out[5]` and reads past
`in[4]`. -/
theorem bulkCompress_bf16_overruns_five :
    (5 : Nat) < 2 ^ 45 ∧
      (∃ v, .store 5 v ∈ (sequentialRun (compressTask (compressCall
        (Bf16.compress (fun a : Nat => a) (⟨2, by decide⟩ : F32Lanes).lanes))
        (fun k : Nat => k) 5 0) (numBatches 5)).map Prod.snd) :=
  ⟨by omega, by
    simpa using (bulkCompress_bf16_overruns (fun a : Nat => a) ⟨2, by decide⟩ (by omega)
      (fun k : Nat => k) 0 (isPoolRun_sequentialRun _ _)).1 (by decide)⟩

end Entry

/-! ### The bulk Compress to bf16 on any count -/

section Bf16Compress

variable [Zero α] (demote : α → β) (d : F32Lanes) {num : Nat} (inp : Nat → α) (outOfs : Nat)

/-- Each batch of the bulk Compress to bf16 stores only from its own start on, and each but
the last only inside its own range: only the last can have a tail. -/
theorem store_mem_compressTask_bf16 (h : num < 2 ^ 45) {t k : Nat} {v : β}
    (ht : t < numBatches num)
    (hv : .store k v ∈ compressTask (compressCall (Bf16.compress demote d.lanes)) inp num outOfs t) :
    outOfs + batchOfs t ≤ k ∧ (t + 1 < numBatches num → k < outOfs + batchOfs t + batchNum num t) := by
  rw [compressTask, compressCall, store_mem_map_shift, Nat.sub_zero] at hv
  refine ⟨Bf16.le_of_store_mem_compress demote hv.2, fun hnext => ?_⟩
  have hdvd : batchNum num t % (2 * d.n) = 0 := by
    rw [batchNum_eq h ht, if_neg (by omega)]
    exact Nat.mod_eq_zero_of_dvd d.two_mul_dvd_kBatch
  have := (Bf16.compress_spec_of_dvd demote d.lanes _ _ _ hdvd).store_mem hv.2
  omega

theorem storesDisjoint_compress_bf16 (h : num < 2 ^ 45) :
    StoresDisjoint (compressTask (compressCall (Bf16.compress demote d.lanes)) inp num outOfs)
      (numBatches num) :=
  storesDisjoint_of_bounds (fun t => outOfs + batchOfs t)
    (fun t => outOfs + batchOfs t + batchNum num t)
    (fun s t hst ht => by dsimp only; have := batch_end_le_batchOfs h hst ht; omega)
    (fun t ht k v hv => store_mem_compressTask_bf16 demote d inp outOfs h ht hv)

variable {run : List (Nat × Access β)}

theorem applyStores_compressRun_bf16 (h : num < 2 ^ 45)
    (hrun : IsPoolRun (compressTask (compressCall (Bf16.compress demote d.lanes)) inp num outOfs)
      (numBatches num) run) (out : Nat → β) {k : Nat} (hk : k < num) :
    applyStores out (run.map Prod.snd) (outOfs + k) = demote (inp k) := by
  obtain ⟨t, ht, hkt⟩ := (batch_cover h k).mp hk
  unfold InBatch at hkt
  have hst : storedAt (outOfs + k)
      (compressTask (compressCall (Bf16.compress demote d.lanes)) inp num outOfs t) =
        [demote (inp k)] := by
    rw [compressTask, compressCall, storedAt_map_shift, if_pos (Nat.zero_le _), Nat.sub_zero,
      show outOfs + k = outOfs + batchOfs t + (k - batchOfs t) by omega,
      Bf16.storedAt_compress_of_lt demote _ _ _ (by omega : k - batchOfs t < batchNum num t)]
    congr 3; omega
  have hmem := store_mem_of_mem_storedAt (hst ▸ List.mem_singleton_self _)
  rw [applyStores_apply, storedAt_poolRun_owner hrun ht fun s hs hsne v hv =>
    hsne (storesDisjoint_compress_bf16 demote d inp outOfs h s t _ v _ hs ht hv hmem), hst]
  rfl

theorem applyStores_compressRun_bf16_of_lt (h : num < 2 ^ 45)
    (hrun : IsPoolRun (compressTask (compressCall (Bf16.compress demote d.lanes)) inp num outOfs)
      (numBatches num) run) (out : Nat → β) {k : Nat} (hk : k < outOfs) :
    applyStores out (run.map Prod.snd) k = out k := by
  rw [applyStores_apply, storedAt_poolRun_eq_nil hrun fun s hs v hv =>
    absurd (store_mem_compressTask_bf16 demote d inp outOfs h hs hv).1 (by omega)]
  rfl

/-- The bulk Compress to bf16 on any count below `2 ^ 45`: every run of the pool leaves the
output as the batches one after another do, with `out[out_ofs + k] = demote(in[k])` for each
`k < num` and `out` below `out_ofs` as it was. Past `out_ofs + num` the tail of the last
batch may write (`bulkCompress_bf16_overruns`). -/
theorem bulkCompress_bf16 (h : num < 2 ^ 45)
    (hrun : IsPoolRun (compressTask (compressCall (Bf16.compress demote d.lanes)) inp num outOfs)
      (numBatches num) run) (out : Nat → β) :
    applyStores out (run.map Prod.snd) = applyStores out ((List.range (numBatches num)).flatMap
      (compressTask (compressCall (Bf16.compress demote d.lanes)) inp num outOfs)) ∧
    (∀ k < num, applyStores out (run.map Prod.snd) (outOfs + k) = demote (inp k)) ∧
    ∀ k < outOfs, applyStores out (run.map Prod.snd) k = out k :=
  ⟨applyStores_poolRun (storesDisjoint_compress_bf16 demote d inp outOfs h) hrun out,
    fun _ hk => applyStores_compressRun_bf16 demote d inp outOfs h hrun out hk,
    fun _ hk => applyStores_compressRun_bf16_of_lt demote d inp outOfs h hrun out hk⟩

/-- Five elements on four lanes, one batch with a tail: `out[4]` holds `demote(in[4])`. -/
theorem bulkCompress_bf16_five :
    (5 : Nat) < 2 ^ 45 ∧
      applyStores (fun _ => 0) ((sequentialRun (compressTask (compressCall
        (Bf16.compress (fun a : Nat => a + 1) (⟨2, by decide⟩ : F32Lanes).lanes))
        (fun k : Nat => k) 5 0) (numBatches 5)).map Prod.snd) 4 = 5 :=
  ⟨by omega, (bulkCompress_bf16 (fun a : Nat => a + 1) ⟨2, by decide⟩ (fun k : Nat => k) 0
    (by omega) (isPoolRun_sequentialRun _ _) _).2.1 4 (by decide)⟩

/-- The bulk Compress to bf16, then the threaded Decompress of the range it wrote, for any
count below `2 ^ 45` and any two schedules: element `k` comes back as
`promote(demote(in[k]))`, and the rest of the output is left as it was. -/
theorem bulk_bf16_roundTrip [Zero β] (promote : β → α) (h : num < 2 ^ 45) (out : Nat → β)
    (hrun : IsPoolRun (compressTask (compressCall (Bf16.compress demote d.lanes)) inp num outOfs)
      (numBatches num) run) {run' : List (Nat × Access α)}
    (hrun' : IsPoolRun (decompressTask (decompressCall (Bf16.decompress promote d.lanes))
      (applyStores out (run.map Prod.snd)) num outOfs) (numBatches num) run')
    (dout : Nat → α) (k : Nat) :
    applyStores dout (run'.map Prod.snd) k =
      if k < num then promote (demote (inp k)) else dout k := by
  rw [(poolRun_spec h (batchSpec_decompress_bf16 promote d.lanes _ outOfs) hrun').apply dout k]
  by_cases hk : k < num
  · rw [if_pos ⟨Nat.zero_le _, by omega⟩, if_pos hk]
    exact congrArg promote (applyStores_compressRun_bf16 demote d inp outOfs h hrun out hk)
  · rw [if_neg (by omega), if_neg hk]

theorem bulk_bf16_roundTrip_five :
    (5 : Nat) < 2 ^ 45 ∧
      applyStores (fun _ => 0) ((sequentialRun (decompressTask (decompressCall
        (Bf16.decompress (fun b : Nat => b * 2) (⟨2, by decide⟩ : F32Lanes).lanes))
        (applyStores (fun _ => 0) ((sequentialRun (compressTask (compressCall
          (Bf16.compress (fun a : Nat => a + 1) (⟨2, by decide⟩ : F32Lanes).lanes))
          (fun k : Nat => k) 5 0) (numBatches 5)).map Prod.snd)) 5 0)
        (numBatches 5)).map Prod.snd) 4 = 10 :=
  ⟨by omega, by
    rw [bulk_bf16_roundTrip (fun a : Nat => a + 1) ⟨2, by decide⟩ (fun k : Nat => k) 0
      (fun b : Nat => b * 2) (by omega) _ (isPoolRun_sequentialRun _ _)
      (isPoolRun_sequentialRun _ _)]
    rfl⟩

end Bf16Compress

end WeightCompression
