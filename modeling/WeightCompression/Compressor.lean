import WeightCompression.CacheLoader

/-!
# `Compressor`, and the loader that reads back what it wrote

`Compressor` regenerates the weights: for each tensor `Insert` compresses the floats into
the array and adds the array to `writer_` under `CacheKey<MatT>(name)`, with
`CompressedSize()` bytes; `AddScales` adds the scales under `CacheKey<float>("scales")`
unless there are none. This module keeps the writer's `Add` calls; the Compress call
itself is the bulk Compress of `Bulk`.

A `CacheLoader` that visits the same tensors, and whose reader answers every call with 0,
asks after `Open` for exactly the blobs the writer added, in the same order and with the
same sizes, as long as every scales call has at least one scale.
-/

namespace WeightCompression

/-- The `Add(key, data, size)` calls of a `Compressor`'s `writer_`: keys and sizes, in order. -/
structure Compressor where
  adds : List (String × Nat)
  deriving DecidableEq, Repr

namespace Compressor

/-- `Insert(name, weights, weights_count, work, out_capacity, out, out_ofs, pool)` for a
tensor of representation `t`: after the bulk Compress, `writer_.Add(CacheKey<MatT>(name),
out, out_capacity)`. -/
def insert (w : Compressor) (t : MatType) (name : String) (outCapacity : Nat) : Compressor :=
  ⟨w.adds ++ [(cacheKey t name, outCapacity)]⟩

/-- `operator()(name, weights, compressed)`, where `size` is `compressed.CompressedSize()`,
which `Insert` gets as `out_capacity`. -/
def call (w : Compressor) (t : MatType) (name : String) (size : Nat) : Compressor :=
  w.insert t name size

/-- `AddScales(scales, len)`: an `Add` of `len` floats, only when `len` is nonzero. -/
def addScales (w : Compressor) (len : Nat) : Compressor :=
  if len ≠ 0 then ⟨w.adds ++ [(cacheKey .f32 "scales", len * 4)]⟩ else w

/-- The writer's side of a visit. The codes in a `LoadOp` are the loader's reader's; the
writer does not read them. -/
def step (w : Compressor) : LoadOp → Compressor
  | .tensor t name size _ => w.call t name size
  | .scales len _ => w.addScales len

/-- The writer after the visits, in order. -/
def run (w : Compressor) (ops : List LoadOp) : Compressor := ops.foldl step w

end Compressor

/-- The loader has met no error and has asked, after `Open`, for the blobs `w` added. -/
structure Agrees (ld : CacheLoader) (w : Compressor) : Prop where
  err_eq : ld.err = 0
  calls_eq : ld.calls = .open :: w.adds.map fun a => .enqueue a.1 a.2

/-- The visit succeeds for the loader: its reader returns 0 on a tensor, and a scales call
has at least one scale. -/
def LoadOp.Succeeds : LoadOp → Prop
  | .tensor _ _ _ r => r = 0
  | .scales len _ => len ≠ 0

theorem agrees_step {ld : CacheLoader} {w : Compressor} (h : Agrees ld w) {op : LoadOp}
    (hop : op.Succeeds) : Agrees (ld.step op) (w.step op) := by
  obtain ⟨herr, hcalls⟩ := h
  cases op with
  | tensor t name size r =>
      simp only [LoadOp.Succeeds] at hop
      constructor <;> simp [CacheLoader.step, CacheLoader.enqueueTensor, Compressor.step,
        Compressor.call, Compressor.insert, herr, hcalls, hop]
  | scales len r =>
      simp only [LoadOp.Succeeds] at hop
      constructor <;> simp [CacheLoader.step, CacheLoader.enqueueScales, Compressor.step,
        Compressor.addScales, herr, hcalls, hop]

theorem agrees_run {ld : CacheLoader} {w : Compressor} (h : Agrees ld w) {ops : List LoadOp}
    (hops : ∀ op ∈ ops, op.Succeeds) : Agrees (ld.run ops) (w.run ops) := by
  induction ops generalizing ld w with
  | nil => exact h
  | cons op ops ih =>
      exact ih (agrees_step h (hops op (List.mem_cons_self _ _)))
        fun op' hm => hops op' (List.mem_cons_of_mem _ hm)

/-- A loader whose reader answers every call with 0, visiting the tensors a `Compressor`
wrote: after `Open` it asks for exactly the blobs the writer added, with the same keys and
sizes and in the same order, provided every scales call has at least one scale. -/
theorem loader_requests_written_blobs (ops : List LoadOp)
    (hok : ∀ t name size r, LoadOp.tensor t name size r ∈ ops → r = 0)
    (hlen : ∀ len r, LoadOp.scales len r ∈ ops → len ≠ 0) :
    ((cacheLoader 0).run ops).err = 0 ∧
      ((cacheLoader 0).run ops).calls =
        .open :: ((⟨[]⟩ : Compressor).run ops).adds.map fun a => .enqueue a.1 a.2 := by
  have h := agrees_run (show Agrees (cacheLoader 0) ⟨[]⟩ from ⟨rfl, rfl⟩) fun op hm => by
    cases op with
    | tensor t name size r => exact hok t name size r hm
    | scales len r => exact hlen len r hm
  exact ⟨h.err_eq, h.calls_eq⟩

theorem loader_requests_written_blobs_two :
    (∀ t name size r, LoadOp.tensor t name size r ∈
      [.tensor .bf16 "weights" 4096 0, .scales 2 0] → r = 0) ∧
    (∀ len r, LoadOp.scales len r ∈ [.tensor .bf16 "weights" 4096 0, .scales 2 0] → len ≠ 0) ∧
    ((cacheLoader 0).run [.tensor .bf16 "weights" 4096 0, .scales 2 0]).calls =
      [.open, .enqueue (cacheKey .bf16 "weights") 4096, .enqueue (cacheKey .f32 "scales") 8] := by
  have hok : ∀ t name size r, LoadOp.tensor t name size r ∈
      [.tensor .bf16 "weights" 4096 0, .scales 2 0] → r = 0 := by simp
  have hlen : ∀ len r, LoadOp.scales len r ∈
      [.tensor .bf16 "weights" 4096 0, .scales 2 0] → len ≠ 0 := by simp
  refine ⟨hok, hlen, ?_⟩
  rw [(loader_requests_written_blobs _ hok hlen).2]
  rfl

end WeightCompression
