import WeightCompression.Batches
import Mathlib.Algebra.Order.Ring.Defs
import Mathlib.Algebra.Order.Field.Basic
import Mathlib.Algebra.EuclideanDomain.Field
import Mathlib.Algebra.Order.Field.Rat

/-!
# The cross-entropy of a prompt (`evals/cross_entropy.cc`)

`ComputeCrossEntropy` lets `Generate` run from the first token of the prompt. Its sampler does
not sample: it returns the prompt's next token, and takes the log of the probability the model
gave that token, clamped at -64, off `cross_entropy`. That total starts at
`log(vocab_size)` for the first token and is returned in bits. Each sampler call asserts
`pos < prompt.size()`. The runtime limit `max_generated_tokens = min(max_tokens, prompt.size())
- 1` keeps `Generate` below that, unless `max_tokens` is 0, where the `size_t` subtraction
wraps.

The calls `Generate` makes are the environment: one distribution per call. Sums are taken
in exact arithmetic over an ordered field, with `log` a parameter; float rounding is not
modelled.
-/

namespace WeightCompression

variable {α : Type} [LinearOrderedField α] (log : α → α)

/-- What the sampler closure of `ComputeCrossEntropy` captures by reference: `pos` and
`cross_entropy`. -/
structure Sampler (α : Type) where
  pos : Nat
  crossEntropy : α

/-- `sample_token(probs, vocab_size)`: `HWY_ASSERT(pos < prompt.size())` (`none` is the
abort), then the prompt's token at `pos`, with `max(log(probs[token]), -64)` taken off
`cross_entropy` and `pos` advanced. -/
def sampleToken (prompt : List Nat) (probs : Nat → α) (s : Sampler α) : Option (Nat × Sampler α) :=
  if h : s.pos < prompt.length then
    some (prompt[s.pos], ⟨s.pos + 1, s.crossEntropy - max (log (probs prompt[s.pos])) (-64)⟩)
  else none

/-- The sampler over the calls `Generate` makes, one distribution each. -/
def runSampler (prompt : List Nat) : List (Nat → α) → Sampler α → Option (Sampler α)
  | [], s => some s
  | probs :: calls, s =>
      match sampleToken log prompt probs s with
      | some (_, s') => runSampler prompt calls s'
      | none => none

/-- `max_tokens` and `max_generated_tokens` of the `RuntimeConfig` that `ComputeCrossEntropy`
passes to `Generate`: `max_tokens` clamped to the prompt's size, then less one in `size_t`. -/
def runtimeLimits (maxTokens promptSize : Nat) : Nat × Nat :=
  (min maxTokens promptSize, sizeT (min maxTokens promptSize + 2 ^ 64 - 1))

/-- `ComputeCrossEntropy(gemma, max_tokens, prompt, kv_cache, verbosity)` when `Generate` calls
the sampler once per distribution of `calls`: `prompt[0]` seeds `Generate` (`none` on an empty
prompt), `pos` starts at 1 and `cross_entropy` at `log(vocab_size)`, and the total is scaled by
`1 / log(2)`. -/
def computeCrossEntropy (vocabSize : Nat) (prompt : List Nat) (calls : List (Nat → α)) :
    Option α :=
  if prompt = [] then none
  else (runSampler log prompt calls ⟨1, log vocabSize⟩).map fun s => s.crossEntropy * (1 / log 2)

/-- The clamped log-probabilities of the tokens from `pos` on, one per call. -/
def clampedLogSum (prompt : List Nat) (calls : List (Nat → α)) (pos : Nat) : α :=
  ((calls.zip (prompt.drop pos)).map fun c => max (log (c.1 c.2)) (-64)).sum

/-- While the prompt has a token for every call, the sampler runs to the end, one position per
call, and takes off the clamped log-probability of each token it returns. -/
theorem runSampler_eq (prompt : List Nat) (calls : List (Nat → α)) (s : Sampler α)
    (h : s.pos + calls.length ≤ prompt.length) :
    runSampler log prompt calls s =
      some ⟨s.pos + calls.length, s.crossEntropy - clampedLogSum log prompt calls s.pos⟩ := by
  induction calls generalizing s with
  | nil => simp [runSampler, clampedLogSum]
  | cons probs calls ih =>
      have hlt : s.pos < prompt.length := by simp only [List.length_cons] at h; omega
      rw [runSampler, sampleToken, dif_pos hlt]
      simp only
      rw [ih _ (by simp only [List.length_cons] at h ⊢; omega), clampedLogSum, clampedLogSum,
        List.drop_eq_getElem_cons hlt, List.zip_cons_cons, List.map_cons, List.sum_cons]
      congr 2
      · simp only [List.length_cons]; omega
      · exact sub_sub _ _ _

/-- Once a call finds no token left, the sampler aborts. -/
theorem runSampler_eq_none_iff (prompt : List Nat) (calls : List (Nat → α)) (s : Sampler α) :
    runSampler log prompt calls s = none ↔
      0 < calls.length ∧ prompt.length < s.pos + calls.length := by
  induction calls generalizing s with
  | nil => simp [runSampler]
  | cons probs calls ih =>
      rw [runSampler, sampleToken]
      by_cases hlt : s.pos < prompt.length
      · rw [dif_pos hlt]
        simp only [ih, List.length_cons]
        omega
      · rw [dif_neg hlt]
        simp only [List.length_cons, true_iff]
        omega

/-- The limit that `ComputeCrossEntropy` gives `Generate` is one less than the clamped
`max_tokens`, and so below the prompt's size, unless `max_tokens` or the prompt is empty;
then the subtraction wraps to `2 ^ 64 - 1`. -/
theorem runtimeLimits_snd {maxTokens promptSize : Nat} (h : min maxTokens promptSize < 2 ^ 64) :
    (runtimeLimits maxTokens promptSize).2 =
      if min maxTokens promptSize = 0 then 2 ^ 64 - 1 else min maxTokens promptSize - 1 := by
  simp only [runtimeLimits, sizeT]
  split_ifs with h0
  · rw [h0]; rfl
  · rw [show min maxTokens promptSize + 2 ^ 64 - 1 = (min maxTokens promptSize - 1) + 2 ^ 64 by omega,
      Nat.add_mod_right, Nat.mod_eq_of_lt (by omega)]

/-- With a token left for every call `Generate` is allowed, `ComputeCrossEntropy` returns, in
bits, `log(vocab_size)` less the clamped log-probabilities of the prompt's tokens from the
second on, each under the distribution of its call. -/
theorem computeCrossEntropy_eq (vocabSize maxTokens : Nat) (prompt : List Nat)
    (calls : List (Nat → α)) (hmax : 0 < maxTokens) (hprompt : prompt ≠ [])
    (hsize : maxTokens < 2 ^ 64) (hcalls : calls.length ≤ (runtimeLimits maxTokens prompt.length).2) :
    computeCrossEntropy log vocabSize prompt calls =
      some ((log vocabSize - clampedLogSum log prompt calls 1) * (1 / log 2)) := by
  have hlen : 0 < prompt.length := List.length_pos.mpr hprompt
  rw [runtimeLimits_snd (by omega), if_neg (by omega)] at hcalls
  rw [computeCrossEntropy, if_neg hprompt,
    runSampler_eq log prompt calls _ (by simp only; omega)]
  rfl

theorem computeCrossEntropy_eq_three_tokens :
    (0 : Nat) < 3 ∧ ([5, 7, 9] : List Nat) ≠ [] ∧ (3 : Nat) < 2 ^ 64 ∧
      [fun _ : Nat => (1 / 2 : ℚ), fun _ => 1 / 4].length ≤ (runtimeLimits 3 3).2 ∧
      computeCrossEntropy (fun x : ℚ => x) 4 [5, 7, 9] [fun _ => 1 / 2, fun _ => 1 / 4] =
        some ((4 - clampedLogSum (fun x : ℚ => x) [5, 7, 9] [fun _ => 1 / 2, fun _ => 1 / 4] 1) *
          (1 / 2)) :=
  have hcalls : [fun _ : Nat => (1 / 2 : ℚ), fun _ => 1 / 4].length ≤ (runtimeLimits 3 3).2 := by
    simp [runtimeLimits, sizeT]
  have h := computeCrossEntropy_eq (fun x : ℚ => x) 4 3 [5, 7, 9] _ (by decide) (by decide)
    (by decide) hcalls
  ⟨by decide, by decide, by decide, hcalls, by simpa using h⟩

/-- `ComputeCrossEntropy` aborts exactly when the prompt is empty or `Generate` calls the
sampler as many times as the prompt has tokens. -/
theorem computeCrossEntropy_eq_none_iff (vocabSize : Nat) (prompt : List Nat)
    (calls : List (Nat → α)) :
    computeCrossEntropy log vocabSize prompt calls = none ↔
      prompt = [] ∨ prompt.length ≤ calls.length := by
  by_cases hp : prompt = []
  · simp [computeCrossEntropy, hp]
  · have hlen : 0 < prompt.length := List.length_pos.mpr hp
    rw [computeCrossEntropy, if_neg hp, Option.map_eq_none', runSampler_eq_none_iff]
    simp only [hp, false_or]
    omega

end WeightCompression
