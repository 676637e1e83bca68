import WeightCompression.CompressedArray

/-!
# `CacheLoader`

`CacheLoader` loads every tensor, and the scales, from a blob file through its
`BlobReader`. `err_` keeps the first failure of the reader's `Open` or of a tensor's
`Enqueue`. Once it is set, the tensor calls skip the reader and `ReadAll` returns false
without reading. `LoadScales` neither reads nor sets `err_`: it always enqueues the scales,
and falls back to scales of 1 when that `Enqueue` fails, so `ReadAll` also reports success
for a load whose scales are these defaults.

The reader is the environment: each of its calls may return any error code. A run gives,
with every operation, the code the reader returns if the operation calls it.

`operator()` also sets the scale of the tensor's array to 1 once `Enqueue` is called, even
when that `Enqueue` fails. So a tensor's array gets scale 1 exactly when `Open` and every
earlier `Enqueue` succeeded. After a `ReadAll` that returns true, `Dot` on every loaded array
is the codec's dot product, unscaled.
-/

namespace WeightCompression

/-- The representations whose tags `CacheKey` puts in front of a tensor name. -/
inductive MatType
  | f32
  | bf16
  | sfp
  | nuq
  deriving DecidableEq, Repr

/-- The tag of `CacheKey<MatT>`; retired tags are never reused. -/
def MatType.tag : MatType → Char
  | .f32 => 'F'
  | .bf16 => 'B'
  | .sfp => '$'
  | .nuq => '2'

/-- `CacheKey<MatT>(name)`: the tagged name, which `MakeKey` packs into the 128-bit key. -/
def cacheKey (t : MatType) (name : String) : String := String.mk (t.tag :: name.toList)

/-- `BlobError`: 0 on success, otherwise the line of the failing check. -/
abbrev BlobError := Int

/-- A call of the loader on its `BlobReader`. -/
inductive ReaderCall
  | open
  | enqueue (key : String) (size : Nat)
  | readAll
  deriving DecidableEq, Repr

/-- A `CacheLoader`: `err_`, and the calls it has made on `reader_`. -/
structure CacheLoader where
  err : BlobError
  calls : List ReaderCall
  deriving DecidableEq, Repr

/-- The constructor `CacheLoader(blob_filename)`: `err_ = reader_.Open(blob_filename)`, where
`Open` returns `r`. -/
def cacheLoader (r : BlobError) : CacheLoader := ⟨r, [.open]⟩

namespace CacheLoader

variable {MatT α : Type}

/-- The loader's side of `operator()`: skip when `err_` is set, otherwise enqueue the tensor
and keep what `Enqueue` returns (`r`) in `err_`. -/
def enqueueTensor (ld : CacheLoader) (key : String) (size : Nat) (r : BlobError) : CacheLoader :=
  if ld.err ≠ 0 then ld else ⟨r, ld.calls ++ [.enqueue key size]⟩

/-- `operator()(name, nullptr, compressed)` for a tensor of representation `t`, where `size` is
`compressed.CompressedSize()`: the scale is set to 1 once the read is enqueued, whatever
`Enqueue` returned. -/
def call (ld : CacheLoader) (t : MatType) (name : String) (size : Nat)
    (c : CompressedArray MatT α) [One α] (r : BlobError) : CacheLoader × CompressedArray MatT α :=
  (ld.enqueueTensor (cacheKey t name) size r, if ld.err ≠ 0 then c else c.setScale 1)

/-- The loader's side of `LoadScales`: one `Enqueue` of `len` floats, `err_` untouched. -/
def enqueueScales (ld : CacheLoader) (len : Nat) : CacheLoader :=
  ⟨ld.err, ld.calls ++ [.enqueue (cacheKey .f32 "scales") (len * 4)]⟩

/-- `LoadScales(scales, len)`: when `Enqueue` returns nonzero (`r`), the first `len` scales
become 1. -/
def loadScales [One α] (ld : CacheLoader) (scales : Nat → α) (len : Nat) (r : BlobError) :
    CacheLoader × (Nat → α) :=
  (ld.enqueueScales len, if r ≠ 0 then fun i => if i < len then 1 else scales i else scales)

/-- `ReadAll(pool)`, where the reader's `ReadAll` returns `r`: whether all tensors loaded. -/
def readAll (ld : CacheLoader) (r : BlobError) : Bool × CacheLoader :=
  if ld.err ≠ 0 then (false, ld)
  else (decide (r = 0), ⟨r, ld.calls ++ [.readAll]⟩)

end CacheLoader

/-- A call on the loader between its construction and `ReadAll`, with the code the reader
returns if the call reaches it. -/
inductive LoadOp
  | tensor (t : MatType) (name : String) (size : Nat) (r : BlobError)
  | scales (len : Nat) (r : BlobError)

namespace CacheLoader

variable {MatT α : Type}

/-- What one operation does to the loader. -/
def step (ld : CacheLoader) : LoadOp → CacheLoader
  | .tensor t name size r => ld.enqueueTensor (cacheKey t name) size r
  | .scales len _ => ld.enqueueScales len

/-- The loader after the operations, in order. -/
def run (ld : CacheLoader) (ops : List LoadOp) : CacheLoader := ops.foldl step ld

/-- The `Enqueue` calls of the `LoadScales` operations among `ops`. -/
def scalesCalls : List LoadOp → List ReaderCall
  | [] => []
  | .tensor .. :: ops => scalesCalls ops
  | .scales len _ :: ops => .enqueue (cacheKey .f32 "scales") (len * 4) :: scalesCalls ops

theorem call_fst [One α] (ld : CacheLoader) (t : MatType) (name : String) (size : Nat)
    (c : CompressedArray MatT α) (r : BlobError) :
    (ld.call t name size c r).1 = ld.step (.tensor t name size r) := rfl

theorem loadScales_fst [One α] (ld : CacheLoader) (scales : Nat → α) (len : Nat) (r : BlobError) :
    (ld.loadScales scales len r).1 = ld.step (.scales len r) := rfl

@[simp] theorem run_nil (ld : CacheLoader) : ld.run [] = ld := rfl

@[simp] theorem run_cons (ld : CacheLoader) (op : LoadOp) (ops : List LoadOp) :
    ld.run (op :: ops) = (ld.step op).run ops := rfl

theorem run_append (ld : CacheLoader) (pre post : List LoadOp) :
    ld.run (pre ++ post) = (ld.run pre).run post := List.foldl_append _ _ _ _

/-- With `err_` set, a step keeps `err_` and makes only the `LoadScales` call, if any. -/
theorem step_of_err {ld : CacheLoader} (h : ld.err ≠ 0) (op : LoadOp) :
    ld.step op = ⟨ld.err, ld.calls ++ scalesCalls [op]⟩ := by
  cases op with
  | tensor t name size r => simp [step, enqueueTensor, h, scalesCalls]
  | scales len r => rfl

/-- With `err_` set, a run keeps `err_` and makes only the `LoadScales` calls. -/
theorem run_of_err {ld : CacheLoader} (h : ld.err ≠ 0) (ops : List LoadOp) :
    ld.run ops = ⟨ld.err, ld.calls ++ scalesCalls ops⟩ := by
  induction ops generalizing ld with
  | nil => simp [scalesCalls]
  | cons op ops ih =>
      rw [run_cons, step_of_err h,
        ih (show (⟨ld.err, ld.calls ++ scalesCalls [op]⟩ : CacheLoader).err ≠ 0 from h)]
      cases op <;> simp [scalesCalls]

theorem readAll_of_err {ld : CacheLoader} (h : ld.err ≠ 0) (r : BlobError) :
    ld.readAll r = (false, ld) := if_pos h

/-- A run in which every tensor `Enqueue` returns 0 keeps a clear `err_` clear. -/
theorem err_run_of_ok {ld : CacheLoader} (h : ld.err = 0) {ops : List LoadOp}
    (hops : ∀ t name size r, LoadOp.tensor t name size r ∈ ops → r = 0) : (ld.run ops).err = 0 := by
  induction ops generalizing ld with
  | nil => exact h
  | cons op ops ih =>
      refine ih ?_ fun t name size r hm => hops t name size r (List.mem_cons_of_mem _ hm)
      cases op with
      | tensor t name size r =>
          simpa [step, enqueueTensor, h] using hops t name size r (List.mem_cons_self _ _)
      | scales len r => exact h

/-- A run that ends with `err_` clear started with it clear, and every tensor `Enqueue` in
it returned 0. -/
theorem err_run_eq_zero {ld : CacheLoader} {ops : List LoadOp} (h : (ld.run ops).err = 0) :
    ld.err = 0 ∧ ∀ t name size r, LoadOp.tensor t name size r ∈ ops → r = 0 := by
  induction ops generalizing ld with
  | nil => exact ⟨h, by simp⟩
  | cons op ops ih =>
      obtain ⟨h1, h2⟩ := ih h
      have hld : ld.err = 0 := by
        by_contra hne
        exact hne (by rw [step_of_err hne] at h1; exact h1)
      refine ⟨hld, fun t name size r hm => ?_⟩
      rcases List.mem_cons.mp hm with rfl | hm
      · simpa [step, enqueueTensor, hld] using h1
      · exact h2 t name size r hm

theorem err_run_eq_zero_iff {ld : CacheLoader} {ops : List LoadOp} :
    (ld.run ops).err = 0 ↔ ld.err = 0 ∧ ∀ t name size r, LoadOp.tensor t name size r ∈ ops → r = 0 :=
  ⟨err_run_eq_zero, fun h => err_run_of_ok h.1 h.2⟩

/-- `ReadAll` after a run from any loader returns true exactly when the loader had no error,
every tensor `Enqueue` of the run returned 0 and so did the reader's `ReadAll`. -/
theorem readAll_run_iff {ld : CacheLoader} {ops : List LoadOp} {r : BlobError} :
    ((ld.run ops).readAll r).1 = true ↔
      ld.err = 0 ∧ (∀ t name size r', LoadOp.tensor t name size r' ∈ ops → r' = 0) ∧ r = 0 := by
  rw [← and_assoc, ← err_run_eq_zero_iff, readAll]
  split_ifs with herr <;> simp_all

/-- `LoadScales` keeps `err_` whatever its `Enqueue` returns, and when it fails sets the `len`
scales to 1. -/
theorem loadScales_swallows [One α] (ld : CacheLoader) (scales : Nat → α) (len : Nat)
    (r : BlobError) :
    (ld.loadScales scales len r).1.err = ld.err ∧
      (r ≠ 0 → ∀ i < len, (ld.loadScales scales len r).2 i = 1) :=
  ⟨rfl, fun h i hi => by simp [loadScales, h, hi]⟩

end CacheLoader

open CacheLoader

/-- A run of the loader with any reader answers. Once `err_` is set it never changes again,
and the only reader calls after it are the `Enqueue` of each `LoadScales`; `ReadAll` on a set
`err_` returns false without calling the reader; `ReadAll` returns true exactly when `Open`,
every tensor `Enqueue` and the reader's `ReadAll` all returned 0; and a failed `LoadScales`
`Enqueue` is not among these: it leaves `err_` as it was and sets the scales to 1. -/
theorem cacheLoader_error_latches {α : Type} [One α] (o : BlobError) (ops : List LoadOp)
    (r : BlobError) :
    (∀ pre post, ops = pre ++ post → ((cacheLoader o).run pre).err ≠ 0 →
      (cacheLoader o).run ops =
        ⟨((cacheLoader o).run pre).err, ((cacheLoader o).run pre).calls ++ scalesCalls post⟩) ∧
    (((cacheLoader o).run ops).err ≠ 0 →
      ((cacheLoader o).run ops).readAll r = (false, (cacheLoader o).run ops)) ∧
    ((((cacheLoader o).run ops).readAll r).1 = true ↔
      o = 0 ∧ (∀ t name size r', LoadOp.tensor t name size r' ∈ ops → r' = 0) ∧ r = 0) ∧
    (∀ (ld : CacheLoader) (scales : Nat → α) len r', (ld.loadScales scales len r').1.err = ld.err ∧
      (r' ≠ 0 → ∀ i < len, (ld.loadScales scales len r').2 i = 1)) :=
  ⟨fun pre post hops h => by rw [hops, run_append, run_of_err h], fun h => readAll_of_err h r,
    readAll_run_iff, loadScales_swallows⟩

/-- After a failed `Open`, `LoadScales` still calls the reader's `Enqueue`. And when `Open` and
the tensor's `Enqueue` return 0 but the scales' `Enqueue` returns 7, `LoadScales` sets both
scales to 1 and `ReadAll` still returns true. -/
theorem loadScales_ignores_err_and_swallows_failure :
    (cacheLoader 1).err ≠ 0 ∧
      ((cacheLoader 1).run [.scales 4 0]).calls = [.open, .enqueue (cacheKey .f32 "scales") 16] ∧
      (∀ i < 2, (((cacheLoader 0).step (.tensor .bf16 "weights" 4096 0)).loadScales
        (fun _ => (2 : ℤ)) 2 7).2 i = 1) ∧
      (((cacheLoader 0).run [.tensor .bf16 "weights" 4096 0, .scales 2 7]).readAll 0).1 = true := by
  decide

/-- `ReadAll` after any run returns true exactly when `Open`, every tensor `Enqueue` and the
reader's `ReadAll` all returned 0; the codes of the `LoadScales` calls do not matter. -/
theorem cacheLoader_readAll_iff (o : BlobError) (ops : List LoadOp) (r : BlobError) :
    (((cacheLoader o).run ops).readAll r).1 = true ↔
      o = 0 ∧ (∀ t name size r', LoadOp.tensor t name size r' ∈ ops → r' = 0) ∧ r = 0 :=
  readAll_run_iff

/-! ### The arrays of a visit -/

/-- A tensor that `ForEachTensor` hands to `operator()`: its representation, its name, its
`CompressedSize()` and its array, with the code the reader's `Enqueue` returns if it is
called. -/
structure TensorVisit (MatT α : Type) where
  t : MatType
  name : String
  size : Nat
  array : CompressedArray MatT α
  r : BlobError

/-- What the visit of a tensor is to the loader itself. -/
def TensorVisit.toLoadOp {MatT α : Type} (v : TensorVisit MatT α) : LoadOp :=
  .tensor v.t v.name v.size v.r

namespace CacheLoader

variable {MatT α : Type}

theorem tensor_codes_iff {vs : List (TensorVisit MatT α)} :
    (∀ t name size r, LoadOp.tensor t name size r ∈ vs.map TensorVisit.toLoadOp → r = 0) ↔
      ∀ w ∈ vs, w.r = 0 := by
  constructor
  · exact fun h w hw => h w.t w.name w.size w.r (List.mem_map_of_mem _ hw)
  · intro h t name size r hm
    obtain ⟨w, hw, he⟩ := List.mem_map.mp hm
    simp only [TensorVisit.toLoadOp, LoadOp.tensor.injEq] at he
    rw [← he.2.2.2]
    exact h w hw

variable [One α]

/-- `operator()` on each tensor in turn: the loader after the visits, and the arrays. -/
def visit (ld : CacheLoader) : List (TensorVisit MatT α) → CacheLoader × List (CompressedArray MatT α)
  | [] => (ld, [])
  | v :: vs =>
      let p := ld.call v.t v.name v.size v.array v.r
      let q := p.1.visit vs
      (q.1, p.2 :: q.2)

/-- On the loader itself a visit is the run of its tensor operations. -/
theorem visit_fst (ld : CacheLoader) (vs : List (TensorVisit MatT α)) :
    (ld.visit vs).1 = ld.run (vs.map TensorVisit.toLoadOp) := by
  induction vs generalizing ld with
  | nil => rfl
  | cons v vs ih => exact ih _

/-- The array of the tensor after `pre` leaves the visit with scale 1 exactly when the loader
has no error after `pre`. -/
theorem visit_snd_getElem (ld : CacheLoader) (pre : List (TensorVisit MatT α))
    (v : TensorVisit MatT α) (post : List (TensorVisit MatT α)) :
    (ld.visit (pre ++ v :: post)).2[pre.length]? =
      some (if (ld.run (pre.map TensorVisit.toLoadOp)).err = 0 then v.array.setScale 1
        else v.array) := by
  induction pre generalizing ld with
  | nil => by_cases h : ld.err = 0 <;> simp [visit, call, h]
  | cons w pre ih =>
      simp only [List.cons_append, visit, List.length_cons, List.getElem?_cons_succ, List.map_cons,
        run_cons]
      exact ih _

/-- A visit that ends with `err_` clear leaves every array with scale 1. -/
theorem scale_of_visit {ld : CacheLoader} {vs : List (TensorVisit MatT α)}
    (h : (ld.visit vs).1.err = 0) : ∀ c ∈ (ld.visit vs).2, c.scale = 1 := by
  induction vs generalizing ld with
  | nil => simp [visit]
  | cons v vs ih =>
      have hld : ld.err = 0 := (err_run_eq_zero (by rwa [visit_fst] at h)).1
      intro c hc
      rcases List.mem_cons.mp hc with rfl | hc
      · simp [call, hld]
      · exact ih h c hc

end CacheLoader

/-- The array of a tensor gets scale 1 exactly when `Open` and the `Enqueue` of every tensor
before it returned 0, whatever its own `Enqueue` returns; otherwise it is left as it was. -/
theorem cacheLoader_visit_scale {MatT α : Type} [One α] (o : BlobError)
    (pre : List (TensorVisit MatT α)) (v : TensorVisit MatT α) (post : List (TensorVisit MatT α)) :
    ((cacheLoader o).visit (pre ++ v :: post)).2[pre.length]? =
      some (if o = 0 ∧ ∀ w ∈ pre, w.r = 0 then v.array.setScale 1 else v.array) := by
  simp only [visit_snd_getElem, err_run_eq_zero_iff, tensor_codes_iff, cacheLoader]

/-- When `ReadAll` returns true, `Dot` on every array the loader visited is the codec's dot
product of its data: every scale is 1. -/
theorem dot_after_readAll {MatT α : Type} [CommSemiring α] (T : Traits MatT α) (N : ℕ+)
    (o : BlobError) (vs : List (TensorVisit MatT α)) (r : BlobError)
    (hok : (((cacheLoader o).visit vs).1.readAll r).1 = true) :
    ∀ c ∈ ((cacheLoader o).visit vs).2, ∀ ofs x num, dot T N c ofs x num = T.dot N c.data ofs x num := by
  have herr : ((cacheLoader o).visit vs).1.err = 0 := by
    by_contra hne
    rw [readAll_of_err hne] at hok
    exact Bool.false_ne_true hok
  intro c hc ofs x num
  rw [dot, scale_of_visit herr c hc, one_mul]

theorem dot_after_readAll_one_tensor :
    (((cacheLoader 0).visit [(⟨.f32, "w", 16, ⟨fun _ => 1, 0⟩, 0⟩ : TensorVisit ℤ ℤ)]).1.readAll 0).1 =
        true ∧
      ∀ c ∈ ((cacheLoader 0).visit [(⟨.f32, "w", 16, ⟨fun _ => 1, 0⟩, 0⟩ : TensorVisit ℤ ℤ)]).2,
        ∀ ofs x num, dot f32Traits 4 c ofs x num = f32Traits.dot 4 c.data ofs x num :=
  ⟨rfl, dot_after_readAll f32Traits 4 0 _ 0 rfl⟩

end WeightCompression
