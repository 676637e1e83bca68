import Mathlib.Data.List.Nodup
import Mathlib.Data.Int.CardIntervalMod

/-!
# Pinning workers and validating arguments (`util/app.h`)

`AssignCpusFromTopology` spreads the workers round robin over the clusters of every package:
worker `i` goes to cluster `i % clusters.size()`, on its CPU `(i / clusters.size()) % size`.
With no cluster, or with an empty cluster that a worker reaches, it divides by zero. When
no CPU is in two clusters, the clusters' worker counts differ by at most one, and if every
cluster also has at least `⌈num_workers / clusters.size()⌉` CPUs, no two workers share a CPU.
The clusters are those of every package, although the source's comment says that all
assignments are made from package 0.

`LoaderArgs::Validate` returns the text of the first check that fails, or `nullptr`. It
also turns `--compressed_weights` into `--weights` when only the first is given, so a second
`Validate` of the arguments it accepted then finds both flags set.
-/

namespace WeightCompression

/-! ### `AssignCpusFromTopology` -/

/-- `clusters` in `AssignCpusFromTopology`: the CPUs of every cluster of every package, in
order, each as `LpsToCpus` lists them. -/
def clustersOf (packages : List (List (List Nat))) : List (List Nat) := packages.flatten

/-- The CPU of worker `i`: `clusters[i % clusters.size()]` at
`(i / clusters.size()) % clusters[cluster_index].size()`; `none` where a modulus is 0. -/
def assignCpu (clusters : List (List Nat)) (i : Nat) : Option Nat :=
  if clusters.length = 0 then none
  else clusters[i % clusters.length]?.bind fun cluster =>
    if cluster.length = 0 then none else cluster[i / clusters.length % cluster.length]?

/-- `AssignCpusFromTopology(topology, num_workers)`: the loop over `i < num_workers` that
pushes the CPU of worker `i`; `none` where it divides by zero. -/
def assignCpusFromTopology (packages : List (List (List Nat))) : Nat → Option (List Nat)
  | 0 => some []
  | i + 1 =>
      match assignCpusFromTopology packages i, assignCpu (clustersOf packages) i with
      | some cpus, some cpu => some (cpus ++ [cpu])
      | _, _ => none

/-- The logical processor each worker thread pins itself to in `PinWorkersToCores`, by thread
index: its CPU from `AssignCpusFromTopology` when the topology lists packages, otherwise its
own index. -/
def pinWorkersToCores (packages : List (List (List Nat))) (numWorkers : Nat) : Option (List Nat) :=
  if packages.isEmpty then some (List.range numWorkers)
  else assignCpusFromTopology packages numWorkers

section Assign

variable {clusters : List (List Nat)} {packages : List (List (List Nat))}

theorem assignCpu_eq_none_iff {i : Nat} :
    assignCpu clusters i = none ↔ clusters = [] ∨ clusters[i % clusters.length]? = some [] := by
  by_cases hn : clusters = []
  · simp [assignCpu, hn]
  · have hlt : i % clusters.length < clusters.length := Nat.mod_lt _ (List.length_pos.mpr hn)
    rw [assignCpu, if_neg (mt List.length_eq_zero.mp hn), List.getElem?_eq_getElem hlt,
      Option.some_bind]
    by_cases hc : clusters[i % clusters.length] = []
    · simp [hc]
    · rw [if_neg (mt List.length_eq_zero.mp hc),
        List.getElem?_eq_getElem (Nat.mod_lt _ (List.length_pos.mpr hc))]
      simp [hn, hc]

/-- What a worker's CPU is made of: the cluster at `i % clusters.size()` and the position in it. -/
theorem assignCpu_eq_some {i x : Nat} (h : assignCpu clusters i = some x) :
    ∃ cl, clusters[i % clusters.length]? = some cl ∧ cl[i / clusters.length % cl.length]? = some x := by
  unfold assignCpu at h
  split_ifs at h
  cases hc : clusters[i % clusters.length]? with
  | none => simp [hc] at h
  | some cl =>
      simp only [hc, Option.some_bind] at h
      split_ifs at h
      exact ⟨cl, rfl, h⟩

theorem assignCpusFromTopology_succ_eq_some {i : Nat} {cpus : List Nat}
    (h : assignCpusFromTopology packages (i + 1) = some cpus) :
    ∃ cpus' cpu, assignCpusFromTopology packages i = some cpus' ∧
      assignCpu (clustersOf packages) i = some cpu ∧ cpus = cpus' ++ [cpu] := by
  unfold assignCpusFromTopology at h
  split at h
  next cpus' cpu h1 h2 => exact ⟨cpus', cpu, h1, h2, (Option.some.inj h).symm⟩
  next => cases h

/-- The loop fails exactly when one of its workers divides by zero. -/
theorem assignCpusFromTopology_eq_none_iff {numWorkers : Nat} :
    assignCpusFromTopology packages numWorkers = none ↔
      ∃ i < numWorkers, assignCpu (clustersOf packages) i = none := by
  induction numWorkers with
  | zero => simp [assignCpusFromTopology]
  | succ i ih =>
      have hstep : assignCpusFromTopology packages (i + 1) = none ↔
          assignCpusFromTopology packages i = none ∨ assignCpu (clustersOf packages) i = none := by
        cases h1 : assignCpusFromTopology packages i <;>
          cases h2 : assignCpu (clustersOf packages) i <;> simp [assignCpusFromTopology, h1, h2]
      rw [hstep, ih]
      constructor
      · rintro (⟨j, hj, h⟩ | h)
        · exact ⟨j, by omega, h⟩
        · exact ⟨i, by omega, h⟩
      · rintro ⟨j, hj, h⟩
        rcases Nat.lt_succ_iff_lt_or_eq.mp hj with hj | rfl
        · exact Or.inl ⟨j, hj, h⟩
        · exact Or.inr h

theorem length_of_assignCpusFromTopology {numWorkers : Nat} {cpus : List Nat}
    (h : assignCpusFromTopology packages numWorkers = some cpus) : cpus.length = numWorkers := by
  induction numWorkers generalizing cpus with
  | zero => cases h; rfl
  | succ i ih =>
      obtain ⟨cpus', cpu, h1, -, rfl⟩ := assignCpusFromTopology_succ_eq_some h
      simp [ih h1]

/-- Every CPU the loop pushes is the CPU of one of its workers. -/
theorem mem_of_assignCpusFromTopology {numWorkers : Nat} {cpus : List Nat}
    (h : assignCpusFromTopology packages numWorkers = some cpus) {x : Nat} (hx : x ∈ cpus) :
    ∃ j < numWorkers, assignCpu (clustersOf packages) j = some x := by
  induction numWorkers generalizing cpus with
  | zero => cases h; simp at hx
  | succ i ih =>
      obtain ⟨cpus', cpu, h1, h2, rfl⟩ := assignCpusFromTopology_succ_eq_some h
      rcases List.mem_append.mp hx with hx | hx
      · obtain ⟨j, hj, hjx⟩ := ih h1 hx
        exact ⟨j, by omega, hjx⟩
      · exact ⟨i, by omega, by rw [List.mem_singleton.mp hx]; exact h2⟩

/-- The loop pushes no CPU twice when no two of its workers get the same CPU. -/
theorem nodup_of_assignCpusFromTopology {numWorkers : Nat} {cpus : List Nat}
    (h : assignCpusFromTopology packages numWorkers = some cpus)
    (hinj : ∀ i j x, i < numWorkers → j < numWorkers → assignCpu (clustersOf packages) i = some x →
      assignCpu (clustersOf packages) j = some x → i = j) : cpus.Nodup := by
  induction numWorkers generalizing cpus with
  | zero => cases h; exact List.nodup_nil
  | succ i ih =>
      obtain ⟨cpus', cpu, h1, h2, rfl⟩ := assignCpusFromTopology_succ_eq_some h
      refine List.nodup_append.mpr ⟨ih h1 fun a b x ha hb => hinj a b x (by omega) (by omega),
        List.nodup_singleton _, fun x hx hx' => ?_⟩
      obtain ⟨j, hj, hjx⟩ := mem_of_assignCpusFromTopology h1 hx
      rw [List.mem_singleton.mp hx'] at hjx
      exact absurd (hinj j i cpu (by omega) (by omega) hjx h2) (by omega)

/-- In clusters that share no CPU and list none twice, a CPU has one position only. -/
theorem eq_of_getElem?_flatten {L : List (List Nat)} (hL : L.flatten.Nodup) {a a' b b' x : Nat}
    {l l' : List Nat} (ha : L[a]? = some l) (ha' : L[a']? = some l') (hb : l[b]? = some x)
    (hb' : l'[b']? = some x) : a = a' ∧ b = b' := by
  obtain ⟨hnd, hdis⟩ := List.nodup_flatten.mp hL
  have haa : a = a' := by
    by_contra hne
    obtain ⟨h1, rfl⟩ := List.getElem?_eq_some_iff.mp ha
    obtain ⟨h2, rfl⟩ := List.getElem?_eq_some_iff.mp ha'
    rcases Nat.lt_or_gt_of_ne hne with h | h
    · exact List.pairwise_iff_getElem.mp hdis a a' h1 h2 h (List.getElem?_mem hb) (List.getElem?_mem hb')
    · exact List.pairwise_iff_getElem.mp hdis a' a h2 h1 h (List.getElem?_mem hb') (List.getElem?_mem hb)
  subst haa
  obtain rfl : l = l' := Option.some.inj (ha.symm.trans ha')
  exact ⟨rfl, List.getElem?_inj (List.getElem?_eq_some_iff.mp hb).1 (hnd l (List.getElem?_mem ha))
    (hb.trans hb'.symm)⟩

/-- While every cluster has at least `⌈num_workers / clusters.size()⌉` CPUs, a worker's
position in its cluster is `i / clusters.size()`, so workers with the same CPU are the same. -/
theorem assignCpu_inj {numWorkers : Nat} (hnodup : clusters.flatten.Nodup)
    (hcap : ∀ c ∈ clusters, numWorkers ≤ clusters.length * c.length) {i j x : Nat}
    (hi : i < numWorkers) (hj : j < numWorkers) (h1 : assignCpu clusters i = some x)
    (h2 : assignCpu clusters j = some x) : i = j := by
  obtain ⟨cl, hc, hx⟩ := assignCpu_eq_some h1
  obtain ⟨cl', hc', hx'⟩ := assignCpu_eq_some h2
  have hpos : ∀ {k d}, k < numWorkers → clusters[k % clusters.length]? = some d →
      k / clusters.length % d.length = k / clusters.length := fun hk hd =>
    Nat.mod_eq_of_lt (Nat.div_lt_of_lt_mul (by have := hcap _ (List.getElem?_mem hd); omega))
  rw [hpos hi hc] at hx
  rw [hpos hj hc'] at hx'
  obtain ⟨hmod, hdiv⟩ := eq_of_getElem?_flatten hnodup hc hc' hx hx'
  rw [← Nat.div_add_mod i clusters.length, ← Nat.div_add_mod j clusters.length, hmod, hdiv]

end Assign

/-- `PinWorkersToCores` divides by zero exactly when the topology lists packages, there is a
worker, and either the packages have no cluster or a cluster that some worker reaches is
empty. -/
theorem pinWorkersToCores_eq_none_iff (packages : List (List (List Nat))) (numWorkers : Nat) :
    pinWorkersToCores packages numWorkers = none ↔
      packages ≠ [] ∧ 0 < numWorkers ∧
        (clustersOf packages = [] ∨ ∃ j < numWorkers, (clustersOf packages)[j]? = some []) := by
  by_cases hp : packages = []
  · simp [pinWorkersToCores, hp]
  · rw [pinWorkersToCores, if_neg (by simpa using hp)]
    simp only [assignCpusFromTopology_eq_none_iff, assignCpu_eq_none_iff, ne_eq, hp,
      not_false_eq_true, true_and]
    constructor
    · rintro ⟨i, hi, hc | hc⟩
      · exact ⟨by omega, Or.inl hc⟩
      · exact ⟨by omega, Or.inr ⟨_, lt_of_le_of_lt (Nat.mod_le _ _) hi, hc⟩⟩
    · rintro ⟨hw, hc | ⟨j, hj, hc⟩⟩
      · exact ⟨0, hw, Or.inl hc⟩
      · have hlt := (List.getElem?_eq_some_iff.mp hc).1
        exact ⟨j, hj, Or.inr (by rwa [Nat.mod_eq_of_lt hlt])⟩

/-- A package whose one cluster is empty: worker 1 reaches it. -/
example : pinWorkersToCores [[[0, 1]], [[]]] 2 = none := by decide

/-- Pinned to clusters that share no CPU, each with at least `⌈num_workers / clusters.size()⌉`
CPUs, the workers get a CPU each and no two share one. -/
theorem assignCpusFromTopology_nodup (packages : List (List (List Nat))) (numWorkers : Nat)
    (hne : clustersOf packages ≠ []) (hnodup : (clustersOf packages).flatten.Nodup)
    (hcap : ∀ c ∈ clustersOf packages, numWorkers ≤ (clustersOf packages).length * c.length) :
    ∃ cpus, assignCpusFromTopology packages numWorkers = some cpus ∧
      cpus.length = numWorkers ∧ cpus.Nodup := by
  have hsome : assignCpusFromTopology packages numWorkers ≠ none := by
    rw [Ne, assignCpusFromTopology_eq_none_iff]
    rintro ⟨i, hi, hnone⟩
    rcases assignCpu_eq_none_iff.mp hnone with h | h
    · exact hne h
    · have := hcap [] (List.getElem?_mem h)
      simp at this
      omega
  obtain ⟨cpus, hcpus⟩ := Option.ne_none_iff_exists'.mp hsome
  exact ⟨cpus, hcpus, length_of_assignCpusFromTopology hcpus,
    nodup_of_assignCpusFromTopology hcpus fun i j x hi hj => assignCpu_inj hnodup hcap hi hj⟩

theorem assignCpusFromTopology_nodup_two_packages :
    clustersOf [[[0, 1], [2, 3]], [[4, 5]]] ≠ [] ∧
      (clustersOf [[[0, 1], [2, 3]], [[4, 5]]]).flatten.Nodup ∧
      (∀ c ∈ clustersOf [[[0, 1], [2, 3]], [[4, 5]]],
        6 ≤ (clustersOf [[[0, 1], [2, 3]], [[4, 5]]]).length * c.length) ∧
      ∃ cpus, assignCpusFromTopology [[[0, 1], [2, 3]], [[4, 5]]] 6 = some cpus ∧
        cpus.length = 6 ∧ cpus.Nodup :=
  have hne : clustersOf [[[0, 1], [2, 3]], [[4, 5]]] ≠ [] := by decide
  have hnodup : (clustersOf [[[0, 1], [2, 3]], [[4, 5]]]).flatten.Nodup := by decide
  have hcap : ∀ c ∈ clustersOf [[[0, 1], [2, 3]], [[4, 5]]],
      6 ≤ (clustersOf [[[0, 1], [2, 3]], [[4, 5]]]).length * c.length := by decide
  ⟨hne, hnodup, hcap, assignCpusFromTopology_nodup _ 6 hne hnodup hcap⟩

/-- The flags of `LoaderArgs` that `Validate` reads; a path is its `Path::path`. -/
structure LoaderArgs where
  tokenizer : String
  weights : String
  compressedWeights : String
  modelTypeStr : String
  weightTypeStr : String
  deriving DecidableEq, Repr

/-- What `Validate` asks outside `LoaderArgs`: `ParseModelTypeAndTraining` and `ParseType`, each
`none` on success or the text it returns, and `Path::Exists` of the file system. -/
structure LoaderEnv where
  parseModelTypeAndTraining : String → Option String
  parseType : String → Option String
  pathExists : String → Bool

namespace LoaderArgs

/-- The last two checks of `Validate`, on `weights`. -/
def checkWeights (env : LoaderEnv) (a : LoaderArgs) : Option String × LoaderArgs :=
  if a.weights = "" then (some "Missing --weights flag, a file for the model weights.", a)
  else if !env.pathExists a.weights then (some "Can't open file specified with --weights flag.", a)
  else (none, a)

/-- `LoaderArgs::Validate()`: the text of the first check that fails, `none` for `nullptr`, and
the arguments after it; with only `--compressed_weights` given, `weights` becomes that path. -/
def validate (env : LoaderEnv) (a : LoaderArgs) : Option String × LoaderArgs :=
  match env.parseModelTypeAndTraining a.modelTypeStr with
  | some err => (some err, a)
  | none =>
    match env.parseType a.weightTypeStr with
    | some err => (some err, a)
    | none =>
      if a.tokenizer = "" then
        (some "Missing --tokenizer flag, a file for the tokenizer is required.", a)
      else if !env.pathExists a.tokenizer then
        (some "Can't open file specified with --tokenizer flag.", a)
      else if a.compressedWeights ≠ "" then
        if a.weights = "" then { a with weights := a.compressedWeights }.checkWeights env
        else (some ("Only one of --weights and --compressed_weights can be " ++
          "specified. To create compressed weights use the compress_weights tool."), a)
      else a.checkWeights env

/-- The weights file that the flags name: `--compressed_weights` is an alias of `--weights`. -/
def weightsFile (a : LoaderArgs) : String :=
  if a.compressedWeights = "" then a.weights else a.compressedWeights

/-- What the checks of `Validate` ask of the flags. -/
def WellFormed (env : LoaderEnv) (a : LoaderArgs) : Prop :=
  env.parseModelTypeAndTraining a.modelTypeStr = none ∧ env.parseType a.weightTypeStr = none ∧
    a.tokenizer ≠ "" ∧ env.pathExists a.tokenizer = true ∧
    (a.weights = "" ∨ a.compressedWeights = "") ∧
    a.weightsFile ≠ "" ∧ env.pathExists a.weightsFile = true

variable {env : LoaderEnv} {a : LoaderArgs}

theorem checkWeights_fst :
    (a.checkWeights env).1 = none ↔ a.weights ≠ "" ∧ env.pathExists a.weights = true := by
  unfold checkWeights
  split_ifs with h1 h2 <;> simp_all

theorem checkWeights_snd : (a.checkWeights env).2 = a := by
  unfold checkWeights
  split_ifs <;> rfl

/-- Past the parsers and the tokenizer, `Validate` is `checkWeights` of the flags with `weights`
set to the weights file, unless both weights flags are given. -/
theorem validate_eq_checkWeights (hm : env.parseModelTypeAndTraining a.modelTypeStr = none)
    (ht : env.parseType a.weightTypeStr = none) (htok : a.tokenizer ≠ "")
    (hex : env.pathExists a.tokenizer = true) (hone : a.weights = "" ∨ a.compressedWeights = "") :
    a.validate env = { a with weights := a.weightsFile }.checkWeights env := by
  simp only [validate, hm, ht]
  rw [if_neg htok, if_neg (by simpa using hex), weightsFile]
  by_cases hc : a.compressedWeights = ""
  · rw [if_neg (not_not.mpr hc), if_pos hc]
  · rw [if_pos hc, if_pos (hone.resolve_right hc), if_neg hc]

/-- `Validate` returns `nullptr` exactly on well-formed flags. -/
theorem validate_fst_eq_none_iff : (a.validate env).1 = none ↔ a.WellFormed env := by
  constructor
  · intro h
    unfold validate at h
    split at h
    · cases h
    · split at h
      · cases h
      · rename_i hm _ ht
        split_ifs at h with htok hex hc hw
        · rw [checkWeights_fst] at h
          exact ⟨hm, ht, htok, by simpa using hex, Or.inl hw, by simpa [weightsFile, hc] using h⟩
        · rw [checkWeights_fst] at h
          exact ⟨hm, ht, htok, by simpa using hex, Or.inr (by simpa using hc),
            by simpa [weightsFile, by simpa using hc] using h⟩
  · rintro ⟨hm, ht, htok, hex, hone, hw⟩
    rw [validate_eq_checkWeights hm ht htok hex hone, checkWeights_fst]
    exact hw

/-- On well-formed flags `Validate` sets `weights` to the weights file and keeps every other
flag. -/
theorem validate_snd_of_wellFormed (h : a.WellFormed env) :
    (a.validate env).2 = { a with weights := a.weightsFile } := by
  obtain ⟨hm, ht, htok, hex, hone, -⟩ := h
  rw [validate_eq_checkWeights hm ht htok hex hone, checkWeights_snd]

end LoaderArgs

open LoaderArgs in
/-- `Validate` is not idempotent: run again on the flags it accepted, it accepts them again only
when `--compressed_weights` was not given; otherwise it now finds both weights flags set. -/
theorem loaderArgs_validate_twice (env : LoaderEnv) (a : LoaderArgs) (hok : (a.validate env).1 = none) :
    ((a.validate env).2.validate env).1 =
      if a.compressedWeights = "" then none
      else some ("Only one of --weights and --compressed_weights can be " ++
        "specified. To create compressed weights use the compress_weights tool.") := by
  have hw := validate_fst_eq_none_iff.mp hok
  rw [validate_snd_of_wellFormed hw]
  obtain ⟨hm, ht, htok, hex, -, hf, hfex⟩ := hw
  by_cases hc : a.compressedWeights = ""
  · rw [if_pos hc, validate_fst_eq_none_iff]
    exact ⟨hm, ht, htok, hex, Or.inr hc, by simpa [weightsFile, hc] using hf,
      by simpa [weightsFile, hc] using hfex⟩
  · rw [if_neg hc]
    simp [validate, hm, ht, htok, hex, hc, weightsFile]

theorem loaderArgs_validate_twice_compressed :
    ((⟨"tokenizer.spm", "", "2b-it-sfp.sbs", "2b-it", "sfp"⟩ : LoaderArgs).validate
        ⟨fun _ => none, fun _ => none, fun _ => true⟩).1 = none ∧
      (((⟨"tokenizer.spm", "", "2b-it-sfp.sbs", "2b-it", "sfp"⟩ : LoaderArgs).validate
        ⟨fun _ => none, fun _ => none, fun _ => true⟩).2.validate
          ⟨fun _ => none, fun _ => none, fun _ => true⟩).1 =
        some ("Only one of --weights and --compressed_weights can be " ++
          "specified. To create compressed weights use the compress_weights tool.") :=
  ⟨by decide, loaderArgs_validate_twice _ _ (by decide)⟩

/-! ### `InferenceArgs::Validate` -/

/-- The flags of `InferenceArgs` that `Validate` reads. -/
structure InferenceArgs where
  maxTokens : Nat
  maxGeneratedTokens : Nat
  deriving DecidableEq, Repr

namespace InferenceArgs

/-- `InferenceArgs::Validate()` against `gcpp::kSeqLen`, which `configs.h` sets. -/
def validate (kSeqLen : Nat) (a : InferenceArgs) : Option String :=
  if a.maxTokens > kSeqLen then
    some "max_tokens is larger than the maximum sequence length (see configs.h)."
  else if a.maxGeneratedTokens > a.maxTokens then
    some "Maximum number of generated tokens is larger than the maximum total tokens."
  else none

/-- The defaults that `ForEach` gives: `max_tokens` 3072, `max_generated_tokens` 2048. -/
def defaults : InferenceArgs := ⟨3072, 2048⟩

theorem validate_eq_none_iff {kSeqLen : Nat} {a : InferenceArgs} :
    a.validate kSeqLen = none ↔ a.maxGeneratedTokens ≤ a.maxTokens ∧ a.maxTokens ≤ kSeqLen := by
  unfold validate
  split_ifs <;> simp <;> omega

/-- The defaults pass `Validate` exactly when the sequence length admits 3072 tokens. -/
theorem validate_defaults {kSeqLen : Nat} : defaults.validate kSeqLen = none ↔ 3072 ≤ kSeqLen := by
  rw [validate_eq_none_iff]
  simp [defaults]

end InferenceArgs

end WeightCompression
