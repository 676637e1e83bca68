import WeightCompression.Highway
import Mathlib.Algebra.BigOperators.Ring
import Mathlib.Data.PNat.Basic
import Mathlib.Tactic.Ring

/-!
# `CompressTraits<hwy::bfloat16_t>`: Dot and DotEO

`Dot` hands the promoted matrix lanes to `hn::Dot::Compute`, which adds whole vectors only. `DotEO` takes a query that
the caller has deinterleaved: in each chunk of `2 * L` elements (`L = Lanes(df32)`), the
`L` even-indexed elements and then the `L` odd-indexed ones. It multiplies the even
query lanes with `hn::PromoteEvenTo` of the bf16 matrix lanes and the odd ones with
`hn::PromoteOddTo`, in four accumulators, two chunks per trip of its loop.

In exact arithmetic DotEO adds up every chunk its loop visits (`dotEO_eq_sum_chunks`).
The loop tests `i < num` once per trip of `4 * L` elements, so it visits
`2 * ⌈num / 4L⌉` chunks: the whole range when `num` is a multiple of `4 * L`, where DotEO
equals Dot on the interleaved query, and one chunk past the end when
`num ≡ 2L (mod 4L)`, which the assertion `num % (2 * L) == 0` admits.
-/

namespace WeightCompression

namespace Bf16

variable {α β : Type} [CommSemiring α] (promote : β → α)

/-- `CompressTraits<hwy::bfloat16_t>::Dot(df, in_capacity, in, in_ofs, vec_aligned, num)`
for an f32 query:
`hn::Dot::Compute<kAtLeastOneVector | kMultipleOfVector>(d_vec, vec_aligned, in + in_ofs, num)`,
with `d_vec` the `N` f32 lanes of `df`. -/
def dot (N : ℕ+) (inp : Nat → β) (inOfs : Nat) (vec : Nat → α) (num : Nat) : α :=
  dotCompute N vec (fun k => promote (inp (inOfs + k))) num

/-- `hn::MulAdd(a, b, c)`, lane by lane. -/
def mulAdd (a b c : Nat → α) : Nat → α := fun j => a j * b j + c j

/-- `hn::PromoteEvenTo(df32, v)`: the even bf16 lanes, promoted. -/
def promoteEvenTo (v : Nat → β) : Nat → α := fun j => promote (v (2 * j))

/-- `hn::PromoteOddTo(df32, v)`: the odd bf16 lanes, promoted. -/
def promoteOddTo (v : Nat → β) : Nat → α := fun j => promote (v (2 * j + 1))

/-- `hn::ReduceSum(df32, v)` over `L` lanes. -/
def reduceSum (L : Nat) (v : Nat → α) : α := ∑ j ∈ Finset.range L, v j

/-- The four accumulators of DotEO. -/
structure EOSums (α : Type) where
  sum0 : Nat → α
  sum1 : Nat → α
  sum2 : Nat → α
  sum3 : Nat → α

/-- One trip of the DotEO loop at `i`: the chunks at `i` and at `i + N`, `N = 2 * L`. -/
def dotEOStep (L : Nat) (inp : Nat → β) (inOfs : Nat) (vec : Nat → α) (i : Nat)
    (s : EOSums α) : EOSums α where
  sum0 := mulAdd (vecU vec i) (promoteEvenTo promote (vecU inp (inOfs + i))) s.sum0
  sum1 := mulAdd (vecU vec (i + L)) (promoteOddTo promote (vecU inp (inOfs + i))) s.sum1
  sum2 := mulAdd (vecU vec (i + 2 * L))
    (promoteEvenTo promote (vecU inp (inOfs + (i + 2 * L)))) s.sum2
  sum3 := mulAdd (vecU vec (i + 2 * L + L))
    (promoteOddTo promote (vecU inp (inOfs + (i + 2 * L)))) s.sum3

/-- `for (size_t i = 0; i < num; /* i += 2 * N */)`. -/
def dotEOLoop (L : ℕ+) (num : Nat) (inp : Nat → β) (inOfs : Nat) (vec : Nat → α) (i : Nat)
    (s : EOSums α) : EOSums α :=
  if i < num then dotEOLoop L num inp inOfs vec (i + 4 * L) (dotEOStep promote L inp inOfs vec i s)
  else s
termination_by num - i
decreasing_by have := L.pos; omega

/-- The sum of the four accumulators over their `L` lanes. -/
def EOSums.total (L : Nat) (s : EOSums α) : α :=
  reduceSum L fun j => (s.sum0 j + s.sum1 j) + (s.sum2 j + s.sum3 j)

/-- `CompressTraits<hwy::bfloat16_t>::DotEO(df32, in, in_ofs, vec_aligned, num)` with
`L = hn::Lanes(df32)`: the reduction tree `(sum0 + sum1) + (sum2 + sum3)`, then
`hn::ReduceSum`. -/
def dotEO (L : ℕ+) (inp : Nat → β) (inOfs : Nat) (vec : Nat → α) (num : Nat) : α :=
  (dotEOLoop promote L num inp inOfs vec 0 ⟨0, 0, 0, 0⟩).total L

/-- What the chunk of `2 * L` query lanes at `p` contributes. -/
def chunkDot (L : Nat) (inp : Nat → β) (inOfs : Nat) (vec : Nat → α) (p : Nat) : α :=
  ∑ j ∈ Finset.range L, (vec (p + j) * promote (inp (inOfs + p + 2 * j)) +
    vec (p + L + j) * promote (inp (inOfs + p + (2 * j + 1))))

/-- `vec` is the even/odd deinterleaving of `x` over `[0, num)`: in each chunk of `2 * L`
elements, the `L` even-indexed elements of `x` and then the `L` odd-indexed ones. -/
def EvenOdd (L : Nat) (x vec : Nat → α) (num : Nat) : Prop :=
  ∀ c j, 2 * L * c + 2 * L ≤ num → j < L →
    vec (2 * L * c + j) = x (2 * L * c + 2 * j) ∧ vec (2 * L * c + L + j) = x (2 * L * c + 2 * j + 1)

theorem total_dotEOStep (L : Nat) (inp : Nat → β) (inOfs : Nat) (vec : Nat → α) (i : Nat)
    (s : EOSums α) : (dotEOStep promote L inp inOfs vec i s).total L =
      s.total L + chunkDot promote L inp inOfs vec i +
        chunkDot promote L inp inOfs vec (i + 2 * L) := by
  simp only [EOSums.total, reduceSum, chunkDot, dotEOStep, mulAdd, promoteEvenTo, promoteOddTo,
    vecU_apply, ← Finset.sum_add_distrib]
  exact Finset.sum_congr rfl fun j _ => by ring

/-- One more trip of `d` elements: `⌈a / d⌉ = ⌈(a - d) / d⌉ + 1` for `a > 0`. -/
theorem ceil_div_step {a d : Nat} (hd : 0 < d) (ha : 0 < a) :
    (a + d - 1) / d = (a - d + d - 1) / d + 1 := by
  by_cases had : d ≤ a
  · rw [show a + d - 1 = a - d + d - 1 + d by omega, Nat.add_div_right _ hd]
  · rw [Nat.div_eq_of_lt_le (k := 1) (by omega) (by omega), show a - d = 0 by omega,
      Nat.div_eq_of_lt (by omega)]

/-- Run from `i`, the loop adds the `2 * ⌈(num - i) / 4L⌉` chunks at `i, i + 2L, ...`. -/
theorem total_dotEOLoop (L : ℕ+) (num : Nat) (inp : Nat → β) (inOfs : Nat) (vec : Nat → α) :
    ∀ i s, (dotEOLoop promote L num inp inOfs vec i s).total L = s.total L +
      ∑ t ∈ Finset.range (2 * ((num - i + 4 * L - 1) / (4 * L))),
        chunkDot promote L inp inOfs vec (i + 2 * L * t) := by
  have hL : 0 < 4 * (L : Nat) := by have := L.pos; omega
  intro i s
  induction i, s using dotEOLoop.induct promote L num inp inOfs vec with
  | case1 i s hi ih =>
      have hq := ceil_div_step hL (show 0 < num - i by omega)
      rw [dotEOLoop, if_pos hi, ih, total_dotEOStep, show num - (i + 4 * L) = num - i - 4 * L by omega,
        hq, show 2 * ((num - i - 4 * L + 4 * L - 1) / (4 * L) + 1) =
          2 + 2 * ((num - i - 4 * L + 4 * L - 1) / (4 * L)) by ring,
        Finset.sum_range_add, Finset.sum_range_succ, Finset.sum_range_one]
      have htail : ∀ t ∈ Finset.range (2 * ((num - i - 4 * L + 4 * L - 1) / (4 * L))),
          chunkDot promote L inp inOfs vec (i + 4 * L + 2 * L * t) =
            chunkDot promote L inp inOfs vec (i + 2 * L * (2 + t)) :=
        fun t _ => by congr 1; ring
      rw [Finset.sum_congr rfl htail, Nat.mul_zero, Nat.add_zero, Nat.mul_one]
      ring
  | case2 i s hi =>
      rw [dotEOLoop, if_neg hi, show num - i = 0 by omega, Nat.zero_add,
        Nat.div_eq_of_lt (by omega), Nat.mul_zero, Finset.sum_range_zero, add_zero]

theorem EOSums.total_zero (L : Nat) : (⟨0, 0, 0, 0⟩ : EOSums α).total L = 0 := by
  simp [EOSums.total, reduceSum]

/-- DotEO is the sum of the `2 * ⌈num / 4L⌉` chunks its loop visits. -/
theorem dotEO_eq_sum_chunks (L : ℕ+) (inp : Nat → β) (inOfs : Nat) (vec : Nat → α) (num : Nat) :
    dotEO promote L inp inOfs vec num =
      ∑ t ∈ Finset.range (2 * ((num + 4 * L - 1) / (4 * L))),
        chunkDot promote L inp inOfs vec (2 * L * t) := by
  rw [dotEO, total_dotEOLoop, EOSums.total_zero, zero_add, Nat.sub_zero]
  simp only [Nat.zero_add]

/-- For `num = 2L * m` the loop visits `m` chunks, and one more when `m` is odd. -/
theorem two_mul_ceil_chunks {L : Nat} (hL : 0 < L) (m : Nat) :
    2 * ((2 * L * m + 4 * L - 1) / (4 * L)) = m + m % 2 := by
  have hsplit : 2 * L * m + 4 * L - 1 = (2 * L * (m % 2) + 4 * L - 1) + 4 * L * (m / 2) := by
    have := Nat.mod_add_div m 2
    have h2 : 2 * L * m = 2 * L * (m % 2) + 4 * L * (m / 2) := by
      conv_lhs => rw [← this]
      ring
    omega
  rw [hsplit, Nat.add_mul_div_left _ _ (by omega)]
  rcases Nat.mod_two_eq_zero_or_one m with h | h
  · rw [h, Nat.mul_zero, Nat.zero_add, Nat.div_eq_of_lt (by omega)]
    omega
  · rw [h, Nat.mul_one, Nat.div_eq_of_lt_le (k := 1) (by omega) (by omega)]
    omega

/-- `∑_{m < 2L} g m` taken pairwise: even index, then odd index. -/
theorem sum_range_two_mul (L : Nat) (g : Nat → α) :
    ∑ m ∈ Finset.range (2 * L), g m = ∑ j ∈ Finset.range L, (g (2 * j) + g (2 * j + 1)) := by
  induction L with
  | zero => simp
  | succ L ih =>
      rw [show 2 * (L + 1) = 2 * L + 1 + 1 by ring, Finset.sum_range_succ, Finset.sum_range_succ,
        ih, Finset.sum_range_succ, add_assoc]

/-- Chunks of `w` consecutive terms add up to the sum over `[0, w * C)`. -/
theorem sum_chunks (w C : Nat) (f : Nat → α) :
    ∑ t ∈ Finset.range C, ∑ r ∈ Finset.range w, f (w * t + r) = ∑ k ∈ Finset.range (w * C), f k := by
  induction C with
  | zero => simp
  | succ C ih => rw [Finset.sum_range_succ, ih, Nat.mul_succ, Finset.sum_range_add]

/-- On a chunk inside the deinterleaved range, `chunkDot` is the plain dot product of the
chunk of `x`. -/
theorem chunkDot_of_evenOdd {L : Nat} {x vec : Nat → α} {num : Nat} (hx : EvenOdd L x vec num)
    (inp : Nat → β) (inOfs c : Nat) (hc : 2 * L * c + 2 * L ≤ num) :
    chunkDot promote L inp inOfs vec (2 * L * c) =
      ∑ r ∈ Finset.range (2 * L), x (2 * L * c + r) * promote (inp (inOfs + (2 * L * c + r))) := by
  rw [sum_range_two_mul, chunkDot]
  refine Finset.sum_congr rfl fun j hj => ?_
  obtain ⟨he, ho⟩ := hx c j hc (Finset.mem_range.mp hj)
  rw [he, ho, Nat.add_assoc (2 * L * c) (2 * j) 1, Nat.add_assoc inOfs, Nat.add_assoc inOfs]

/-- Under the asserted precondition `num % (2 * L) == 0`, DotEO on the deinterleaving of `x`
is Dot on `x`, plus the chunk past the end when `num` is an odd multiple of `2 * L`. -/
theorem dotEO_of_evenOdd (L : ℕ+) (inp : Nat → β) (inOfs : Nat) {x vec : Nat → α} {num : Nat}
    (hnum : num % (2 * L) = 0) (hx : EvenOdd L x vec num) :
    dotEO promote L inp inOfs vec num = dot promote L inp inOfs x num +
      if num % (4 * L) = 0 then 0 else chunkDot promote L inp inOfs vec num := by
  have hL := L.pos
  obtain ⟨m, rfl⟩ : ∃ m, num = 2 * L * m := ⟨num / (2 * L), (Nat.mul_div_cancel' (Nat.dvd_of_mod_eq_zero hnum)).symm⟩
  have hmod : 2 * L * m % (4 * L) = 2 * L * (m % 2) := by
    rw [show 4 * (L : Nat) = 2 * L * 2 by ring, Nat.mul_mod_mul_left]
  have hfull : ∑ t ∈ Finset.range m, chunkDot promote L inp inOfs vec (2 * L * t) =
      dot promote L inp inOfs x (2 * L * m) := by
    rw [Finset.sum_congr rfl fun t ht => chunkDot_of_evenOdd promote hx inp inOfs t (by
      rw [← Nat.mul_succ]; exact Nat.mul_le_mul_left _ (Finset.mem_range.mp ht)),
      sum_chunks (2 * L) m (fun k => x k * promote (inp (inOfs + k))), dot,
      dotCompute_of_dvd (dvd_mul_of_dvd_left (dvd_mul_left _ _) m)]
  rw [dotEO_eq_sum_chunks, two_mul_ceil_chunks hL, hmod]
  rcases Nat.mod_two_eq_zero_or_one m with h | h
  · rw [h, Nat.add_zero, hfull, Nat.mul_zero, if_pos rfl, add_zero]
  · rw [h, Finset.sum_range_succ, hfull, Nat.mul_one, if_neg (by omega)]

/-- One f32 lane and `num = 4`, an even multiple of `2 * L`: DotEO is Dot. -/
theorem dotEO_of_evenOdd_four :
    4 % (2 * ((1 : ℕ+) : Nat)) = 0 ∧ EvenOdd 1 (fun _ => (1 : ℤ)) (fun _ => 1) 4 ∧
      dotEO (β := ℤ) id 1 (fun _ => 1) 0 (fun _ => (1 : ℤ)) 4 =
        dot (β := ℤ) id 1 (fun _ => 1) 0 (fun _ => (1 : ℤ)) 4 +
          if 4 % (4 * ((1 : ℕ+) : Nat)) = 0 then 0
          else chunkDot (β := ℤ) id 1 (fun _ => 1) 0 (fun _ => (1 : ℤ)) 4 :=
  ⟨by decide, fun _ _ _ _ => ⟨rfl, rfl⟩,
    dotEO_of_evenOdd id 1 (fun _ => 1) 0 (by decide) fun _ _ _ _ => ⟨rfl, rfl⟩⟩

/-- One f32 lane and `num = 2`, which the assertions admit: the loop's second chunk lies
past the end, so DotEO adds `vec[2] * in[2] + vec[3] * in[3]` to the two-element dot
product. -/
theorem dotEO_one_lane_two_elements :
    EvenOdd 1 (fun _ => (1 : ℤ)) (fun _ => 1) 2 ∧
      dotEO (β := ℤ) id 1 (fun _ => 1) 0 (fun _ => (1 : ℤ)) 2 = 4 ∧
      dot (β := ℤ) id 1 (fun _ => 1) 0 (fun _ => (1 : ℤ)) 2 = 2 := by
  refine ⟨fun _ _ _ _ => ⟨rfl, rfl⟩, ?_, ?_⟩
  · rw [dotEO_eq_sum_chunks]
    simp [chunkDot, Finset.sum_range_succ]
  · simp [dot, dotCompute, Finset.sum_range_succ]

end Bf16

end WeightCompression
