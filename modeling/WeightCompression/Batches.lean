import WeightCompression.Pool
import Mathlib.Order.Monotone.Basic

/-!
# Batches of the bulk Compress and Decompress

The bulk `Compress(in, num, work, out_capacity, out, out_ofs, pool)` and the threaded
`Decompress(compressed, compressed_ofs, out, num, pool)` of `compress-inl.h` cut their
`num` elements into batches of `kBatch = 8192` and hand them to `pool.Run`. The task index
reaches the closure as a `uint32_t`, and the offsets are `size_t` values; `sizeT` and
`idxBatch` keep that arithmetic as the code computes it.

Below `2 ^ 45` elements nothing wraps (`batchOfs_eq`, `batchNum_eq`), the batches are
nonempty, disjoint and cover `[0, num)`, each batch keeps the alignment the whole call has,
the closures hand every call the window of its own batch, and then every run of the pool
writes the same output as the batches one after another.
-/

namespace WeightCompression

variable {α β : Type}

/-- `kBatch`: elements per task of the bulk Compress and Decompress. -/
def kBatch : Nat := 8192

/-- Modelled from the spec: `kGroupSize` of `nuq.h`, the elements of one NUQ group
(`nuq_test.cc` asserts `kGroupSize == 256`). -/
def kGroupSize : Nat := 256

/-- A `size_t` result: arithmetic modulo `2 ^ 64`. -/
def sizeT (x : Nat) : Nat := x % 2 ^ 64

/-- `hwy::DivCeil(a, b)`, computed in `size_t`. -/
def divCeil (a b : Nat) : Nat := sizeT (a + b - 1) / b

/-- `num_batches`. -/
def numBatches (num : Nat) : Nat := divCeil num kBatch

/-- `idx_batch`: the task index as the closure's `uint32_t` parameter. -/
def idxBatch (task : Nat) : Nat := task % 2 ^ 32

/-- `in_ofs` of Compress and `ofs` of Decompress: `idx_batch * kBatch` in `size_t`. -/
def batchOfs (task : Nat) : Nat := sizeT (idxBatch task * kBatch)

/-- `my_num` of Compress and `batch` of Decompress: the last batch takes what is left. -/
def batchNum (num task : Nat) : Nat :=
  if idxBatch task = sizeT (numBatches num + 2 ^ 64 - 1) then sizeT (num + 2 ^ 64 - batchOfs task)
  else kBatch

/-- A `CompressTraits` entry point as the bulk functions call it: input buffer, input
offset, element count and output offset give the accesses of the call. -/
abbrev Codec (α β : Type) := (Nat → α) → Nat → Nat → Nat → List (Access β)

/-- Task `task` of the bulk Compress:
`Traits::Compress(df, in + in_ofs, my_num, tls, out_capacity, out, out_ofs + in_ofs)`. -/
def compressTask (call : Codec α β) (inp : Nat → α) (num outOfs task : Nat) : List (Access β) :=
  call inp (batchOfs task) (batchNum num task) (outOfs + batchOfs task)

/-- Task `task` of the threaded Decompress:
`Traits::Decompress(d, size, data, compressed_ofs + ofs, out + ofs, batch)`. -/
def decompressTask (call : Codec α β) (data : Nat → α) (num compressedOfs task : Nat) :
    List (Access β) :=
  call data (compressedOfs + batchOfs task) (batchNum num task) (batchOfs task)

/-- Element `k` lies in batch `t`. -/
def InBatch (num t k : Nat) : Prop := batchOfs t ≤ k ∧ k < batchOfs t + batchNum num t

/-- Every batch call stores only inside its own output range. An output position is
`layout` of an element offset: the identity for element formats, the start of the
group's packed slot for NUQ. -/
def BatchWritesOwn (trace : Nat → List (Access β)) (layout : Nat → Nat) (num base : Nat) : Prop :=
  ∀ t k (v : β), t < numBatches num → .store k v ∈ trace t →
    layout (base + batchOfs t) ≤ k ∧ k < layout (base + batchOfs t + batchNum num t)

/-- A codec call on `n` elements stores only inside its own output window, `layout` of
`[outOfs, outOfs + n)`, whatever its input and offsets. -/
def CallWritesOwn (call : Codec α β) (layout : Nat → Nat) (n : Nat) : Prop :=
  ∀ inp inOfs outOfs k (v : β), .store k v ∈ call inp inOfs n outOfs →
    layout outOfs ≤ k ∧ k < layout (outOfs + n)

/-- The assertion of `CompressTraits<float>::Compress` and `Decompress` for `N` lanes. -/
def F32Aligned (N num : Nat) : Prop := 2 * N ≤ num ∧ num % (2 * N) = 0

/-- The NUQ codec's precondition: whole groups at a group boundary. -/
def NuqAligned (num ofs : Nat) : Prop := num % kGroupSize = 0 ∧ ofs % kGroupSize = 0

/-- `hn::Lanes(hn::ScalableTag<float>())`. Highway vectors have a power of two of lanes,
and the widest f32 vector (one 65536-bit RVV register) has `2 ^ 11`. -/
structure F32Lanes where
  log2 : Nat
  log2_le : log2 ≤ 11

/-- The lane count of the descriptor. -/
def F32Lanes.n (d : F32Lanes) : Nat := 2 ^ d.log2

theorem F32Lanes.two_mul_dvd_kBatch (d : F32Lanes) : 2 * d.n ∣ kBatch := by
  have h : 2 * d.n = 2 ^ (d.log2 + 1) := by rw [F32Lanes.n, Nat.pow_succ, Nat.mul_comm]
  rw [h, show kBatch = 2 ^ 13 by rfl]
  exact Nat.pow_dvd_pow 2 (by have := d.log2_le; omega)

/-! ### `size_t` and `uint32_t` arithmetic below `2 ^ 45` elements -/

section Exact

variable {num t : Nat}

theorem numBatches_eq (h : num < 2 ^ 45) : numBatches num = (num + kBatch - 1) / kBatch := by
  rw [numBatches, divCeil, sizeT, Nat.mod_eq_of_lt (by simp only [kBatch]; omega)]

theorem lt_two_pow_32_of_lt_numBatches (h : num < 2 ^ 45) (ht : t < numBatches num) :
    t < 2 ^ 32 := by
  rw [numBatches_eq h] at ht; simp only [kBatch] at ht; omega

theorem batchOfs_eq (h : num < 2 ^ 45) (ht : t < numBatches num) : batchOfs t = kBatch * t := by
  have := lt_two_pow_32_of_lt_numBatches h ht
  rw [batchOfs, idxBatch, sizeT, Nat.mod_eq_of_lt this, Nat.mod_eq_of_lt (by simp only [kBatch]; omega),
    Nat.mul_comm]

/-- A `size_t` difference that does not wrap. -/
theorem sizeT_add_sub {a b : Nat} (hb : b ≤ a) (ha : a < 2 ^ 64) : sizeT (a + 2 ^ 64 - b) = a - b := by
  rw [sizeT, show a + 2 ^ 64 - b = a - b + 2 ^ 64 by omega, Nat.add_mod_right,
    Nat.mod_eq_of_lt (by omega)]

theorem batchNum_eq (h : num < 2 ^ 45) (ht : t < numBatches num) :
    batchNum num t = if t = numBatches num - 1 then num - kBatch * t else kBatch := by
  have hb := numBatches_eq h
  have hofs : kBatch * t ≤ num := by rw [hb] at ht; simp only [kBatch] at ht ⊢; omega
  rw [batchNum, idxBatch, Nat.mod_eq_of_lt (lt_two_pow_32_of_lt_numBatches h ht),
    sizeT_add_sub (by omega) (by rw [hb]; simp only [kBatch]; omega), batchOfs_eq h ht,
    sizeT_add_sub hofs (by omega)]

/-- Below `2 ^ 45` elements, batch `t` is `[kBatch * t, min num (kBatch * (t + 1)))`. -/
theorem inBatch_iff (h : num < 2 ^ 45) (ht : t < numBatches num) {k : Nat} :
    InBatch num t k ↔ kBatch * t ≤ k ∧ k < num ∧ k < kBatch * (t + 1) := by
  have hb := numBatches_eq h
  rw [InBatch, batchOfs_eq h ht, batchNum_eq h ht]
  simp only [kBatch] at hb ht ⊢
  split <;> omega

theorem batchNum_pos (h : num < 2 ^ 45) (ht : t < numBatches num) : 0 < batchNum num t := by
  have hb := numBatches_eq h
  rw [batchNum_eq h ht]
  simp only [kBatch] at hb ht ⊢
  split <;> omega

/-- An earlier batch ends where a later one starts, or before. -/
theorem batch_end_le_batchOfs {s : Nat} (h : num < 2 ^ 45) (hst : s < t)
    (ht : t < numBatches num) : batchOfs s + batchNum num s ≤ batchOfs t := by
  have hs : s < numBatches num := hst.trans ht
  have hb := numBatches_eq h
  rw [batchOfs_eq h hs, batchNum_eq h hs, batchOfs_eq h ht]
  simp only [kBatch] at hb ht hs ⊢
  split <;> omega

theorem batchNum_dvd {m : Nat} (h : num < 2 ^ 45) (ht : t < numBatches num) (hm : m ∣ kBatch)
    (hnum : m ∣ num) : m ∣ batchNum num t := by
  rw [batchNum_eq h ht]
  split
  · exact Nat.dvd_sub' hnum (Nat.dvd_trans hm (Nat.dvd_mul_right _ _))
  · exact hm

end Exact

/-! ### The batches partition `[0, num)` -/

section Partition

variable {num : Nat}

theorem batch_nonempty (h : num < 2 ^ 45) : ∀ t < numBatches num, 0 < batchNum num t :=
  fun _ ht => batchNum_pos h ht

theorem batch_disjoint (h : num < 2 ^ 45) :
    ∀ s t k, s < numBatches num → t < numBatches num → InBatch num s k → InBatch num t k →
      s = t := by
  intro s t k hs ht hks hkt
  rw [inBatch_iff h hs] at hks
  rw [inBatch_iff h ht] at hkt
  simp only [kBatch] at hks hkt
  omega

theorem batch_cover (h : num < 2 ^ 45) :
    ∀ k, k < num ↔ ∃ t < numBatches num, InBatch num t k := by
  intro k
  constructor
  · intro hk
    have hb := numBatches_eq h
    have ht : k / kBatch < numBatches num := by rw [hb]; simp only [kBatch]; omega
    refine ⟨k / kBatch, ht, (inBatch_iff h ht).mpr ?_⟩
    simp only [kBatch]; omega
  · rintro ⟨t, ht, hk⟩
    exact ((inBatch_iff h ht).mp hk).2.1

/-- Each batch of a call with the float codec's alignment has that alignment too. -/
theorem batch_f32Aligned (h : num < 2 ^ 45) (d : F32Lanes) (ha : F32Aligned d.n num) :
    ∀ t < numBatches num, F32Aligned d.n (batchNum num t) := by
  intro t ht
  have hd := batchNum_dvd h ht d.two_mul_dvd_kBatch (Nat.dvd_of_mod_eq_zero ha.2)
  exact ⟨Nat.le_of_dvd (batchNum_pos h ht) hd, Nat.mod_eq_zero_of_dvd hd⟩

/-- Each batch of a group-aligned call is group-aligned, at a group-aligned offset. -/
theorem batch_nuqAligned (h : num < 2 ^ 45) (base : Nat) (ha : NuqAligned num base) :
    ∀ t < numBatches num, NuqAligned (batchNum num t) (base + batchOfs t) := by
  intro t ht
  have hd := batchNum_dvd h ht (show kGroupSize ∣ kBatch by decide) (Nat.dvd_of_mod_eq_zero ha.1)
  refine ⟨Nat.mod_eq_zero_of_dvd hd, ?_⟩
  rw [batchOfs_eq h ht]
  have := ha.2
  simp only [kBatch, kGroupSize] at this ⊢
  omega

end Partition

/-! ### Every run of the pool writes what the sequential run writes -/

section Run

variable {num base : Nat} {layout : Nat → Nat} {trace : Nat → List (Access β)}

theorem storesDisjoint_of_batchWritesOwn (h : num < 2 ^ 45) (hmono : Monotone layout)
    (hw : BatchWritesOwn trace layout num base) : StoresDisjoint trace (numBatches num) :=
  storesDisjoint_of_bounds (fun t => layout (base + batchOfs t))
    (fun t => layout (base + batchOfs t + batchNum num t))
    (fun s t hst ht => hmono (by have := batch_end_le_batchOfs h hst ht; omega))
    (fun t ht k v hv => ⟨(hw t k v ht hv).1, fun _ => (hw t k v ht hv).2⟩)

/-- A pool run of batches that write only their own ranges writes what the batches
write one after another, in index order. -/
theorem poolRun_eq_sequential (h : num < 2 ^ 45) (hmono : Monotone layout)
    (hw : BatchWritesOwn trace layout num base) {run : List (Nat × Access β)}
    (hrun : IsPoolRun trace (numBatches num) run) (out : Nat → β) :
    applyStores out (run.map Prod.snd) =
      applyStores out ((List.range (numBatches num)).flatMap trace) :=
  applyStores_poolRun (storesDisjoint_of_batchWritesOwn h hmono hw) hrun out

/-- The bulk Compress hands every call the window of its own batch, at `out_ofs + in_ofs`. -/
theorem batchWritesOwn_compressTask {call : Codec α β}
    (hc : ∀ t < numBatches num, CallWritesOwn call layout (batchNum num t)) (inp : Nat → α)
    (outOfs : Nat) : BatchWritesOwn (compressTask call inp num outOfs) layout num outOfs :=
  fun t k v ht hv => hc t ht inp (batchOfs t) (outOfs + batchOfs t) k v hv

/-- The threaded Decompress hands every call the window of its own batch, at `out + ofs`. -/
theorem batchWritesOwn_decompressTask {call : Codec α β}
    (hc : ∀ t < numBatches num, CallWritesOwn call id (batchNum num t)) (data : Nat → α)
    (compressedOfs : Nat) : BatchWritesOwn (decompressTask call data num compressedOfs) id num 0 :=
  fun t k v ht hv => by
    simpa only [Nat.zero_add] using hc t ht data (compressedOfs + batchOfs t) (batchOfs t) k v hv

end Run

end WeightCompression
