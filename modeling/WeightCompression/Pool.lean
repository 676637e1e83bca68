import WeightCompression.Memory

/-!
# Runs of the thread pool

`hwy::ThreadPool::Run(0, n, closure)` calls `closure(task, thread)` once for every task
below `n`, on some worker, and returns when all have finished. Workers run at the same
time, so the accesses of the tasks reach memory interleaved in some order. A run is such
an interleaving, each access tagged with its task. It is a run of the pool when the
projection onto every task is that task's accesses in program order; this holds for any
number of workers and any assignment of tasks to them.

When no two tasks store to the same position, every run leaves the output buffer as the
sequential run in task order does (`applyStores_poolRun`).
-/

namespace WeightCompression

variable {β : Type}

/-- The accesses of task `t` in a run, in the order they occur. -/
def project (t : Nat) : List (Nat × Access β) → List (Access β)
  | [] => []
  | (s, e) :: run => if s = t then e :: project t run else project t run

/-- `run` executes `pool.Run(0, n, closure)` where task `t` issues `trace t`. -/
def IsPoolRun (trace : Nat → List (Access β)) (n : Nat) (run : List (Nat × Access β)) : Prop :=
  ∀ t, project t run = if t < n then trace t else []

/-- The run of one worker that takes the tasks in index order. -/
def sequentialRun (trace : Nat → List (Access β)) (n : Nat) : List (Nat × Access β) :=
  (List.range n).flatMap fun t => (trace t).map (t, ·)

/-- No position is stored to by two different tasks below `n`. -/
def StoresDisjoint (trace : Nat → List (Access β)) (n : Nat) : Prop :=
  ∀ s t k (v w : β), s < n → t < n → .store k v ∈ trace s → .store k w ∈ trace t → s = t

@[simp] theorem project_nil (t : Nat) : project t ([] : List (Nat × Access β)) = [] := rfl

@[simp] theorem project_append (t : Nat) (run run' : List (Nat × Access β)) :
    project t (run ++ run') = project t run ++ project t run' := by
  induction run with
  | nil => rfl
  | cons p run ih => by_cases h : p.1 = t <;> simp [project, h, ih]

theorem project_map_tag (t s : Nat) (evs : List (Access β)) :
    project t (evs.map (s, ·)) = if s = t then evs else [] := by
  induction evs with
  | nil => simp
  | cons e evs ih => by_cases h : s = t <;> simp_all [project]

theorem mem_project {run : List (Nat × Access β)} {s : Nat} {e : Access β}
    (h : (s, e) ∈ run) : e ∈ project s run := by
  induction run with
  | nil => simp at h
  | cons p run ih =>
      obtain ⟨s', e'⟩ := p
      rcases List.mem_cons.mp h with h | h
      · cases h; simp [project]
      · by_cases hs : s' = s <;> simp [project, hs, ih h]

/-- If only task `t` stores to `k`, the stores at `k` are those of `t`'s own accesses. -/
theorem storedAt_eq_project {k t : Nat} {run : List (Nat × Access β)}
    (h : ∀ s e, (s, e) ∈ run → s ≠ t → ∀ v, e ≠ .store k v) :
    storedAt k (run.map Prod.snd) = storedAt k (project t run) := by
  induction run with
  | nil => rfl
  | cons p run ih =>
      obtain ⟨s, e⟩ := p
      have ih := ih fun s' e' hm => h s' e' (List.mem_cons_of_mem _ hm)
      by_cases hs : s = t
      · simp only [project, hs, if_true, List.map_cons]
        rw [← List.singleton_append, storedAt_append, ih, ← storedAt_append,
          List.singleton_append]
      · have he : storedAt k [e] = [] :=
          storedAt_eq_nil.mpr fun v hv => h s e (List.mem_cons_self _ _) hs v (by simpa [eq_comm] using hv)
        simp only [project, hs, if_false, List.map_cons]
        rw [← List.singleton_append, storedAt_append, he, ih, List.nil_append]

theorem isPoolRun_sequentialRun (trace : Nat → List (Access β)) (n : Nat) :
    IsPoolRun trace n (sequentialRun trace n) := by
  intro t
  induction n with
  | zero => simp [sequentialRun]
  | succ n ih =>
      rw [sequentialRun, List.range_succ, List.flatMap_append, project_append, ← sequentialRun,
        ih]
      simp only [List.flatMap_cons, List.flatMap_nil, List.append_nil, project_map_tag]
      by_cases h : t < n
      · simp [h, show t < n + 1 by omega, show n ≠ t by omega]
      · by_cases h' : n = t
        · simp [h, h']
        · simp [h, h', show ¬ t < n + 1 by omega]

@[simp] theorem sequentialRun_map_snd (trace : Nat → List (Access β)) (n : Nat) :
    (sequentialRun trace n).map Prod.snd = (List.range n).flatMap trace := by
  simp [sequentialRun, List.map_flatMap, Function.comp_def]

/-- Under disjoint stores every position has a task that alone may store to it. -/
theorem exists_owner {trace : Nat → List (Access β)} {n : Nat} (hdis : StoresDisjoint trace n)
    (k : Nat) : ∃ t, ∀ s, s < n → s ≠ t → ∀ v, .store k v ∉ trace s := by
  by_cases hk : ∃ t v, t < n ∧ .store k v ∈ trace t
  · obtain ⟨t, v, ht, hv⟩ := hk
    exact ⟨t, fun s hs hst w hw => hst (hdis s t k w v hs ht hw hv)⟩
  · exact ⟨0, fun s hs _ w hw => hk ⟨s, w, hs, hw⟩⟩

theorem mem_trace_of_mem_run {trace : Nat → List (Access β)} {n : Nat}
    {run : List (Nat × Access β)} (hrun : IsPoolRun trace n run) {s : Nat} {e : Access β}
    (hm : (s, e) ∈ run) : s < n ∧ e ∈ trace s := by
  have he := mem_project hm
  rw [hrun s] at he
  by_cases hs : s < n
  · simpa [hs] using he
  · simp [hs] at he

theorem mem_of_mem_project {run : List (Nat × Access β)} {t : Nat} {e : Access β}
    (h : e ∈ project t run) : (t, e) ∈ run := by
  induction run with
  | nil => simp at h
  | cons p run ih =>
      obtain ⟨s, e'⟩ := p
      by_cases hs : s = t
      · subst hs
        simp only [project, if_true, List.mem_cons] at h
        rcases h with rfl | h
        · exact List.mem_cons_self _ _
        · exact List.mem_cons_of_mem _ (ih h)
      · simp only [project, hs, if_false] at h
        exact List.mem_cons_of_mem _ (ih h)

/-- Every access of every task reaches memory in a run of the pool. -/
theorem mem_run_of_mem_trace {trace : Nat → List (Access β)} {n : Nat}
    {run : List (Nat × Access β)} (hrun : IsPoolRun trace n run) {t : Nat} (ht : t < n)
    {e : Access β} (he : e ∈ trace t) : e ∈ run.map Prod.snd := by
  have hp : e ∈ project t run := by rw [hrun t, if_pos ht]; exact he
  exact List.mem_map_of_mem _ (mem_of_mem_project hp)

/-- A position that only task `t` may store to holds the stores of `t`, in any run. -/
theorem storedAt_poolRun_owner {trace : Nat → List (Access β)} {n : Nat}
    {run : List (Nat × Access β)} (hrun : IsPoolRun trace n run) {t k : Nat} (ht : t < n)
    (hown : ∀ s < n, s ≠ t → ∀ v, .store k v ∉ trace s) :
    storedAt k (run.map Prod.snd) = storedAt k (trace t) := by
  rw [storedAt_eq_project fun s e hm hst v he => ?_, hrun t, if_pos ht]
  obtain ⟨hs, hmem⟩ := mem_trace_of_mem_run hrun hm
  exact hown s hs hst v (he ▸ hmem)

/-- A position that no task stores to is stored to by no run. -/
theorem storedAt_poolRun_eq_nil {trace : Nat → List (Access β)} {n : Nat}
    {run : List (Nat × Access β)} (hrun : IsPoolRun trace n run) {k : Nat}
    (hnone : ∀ s < n, ∀ v, .store k v ∉ trace s) : storedAt k (run.map Prod.snd) = [] := by
  refine storedAt_eq_nil.mpr fun v hv => ?_
  obtain ⟨⟨s, e⟩, hm, he⟩ := List.mem_map.mp hv
  obtain ⟨hs, hmem⟩ := mem_trace_of_mem_run hrun hm
  exact hnone s hs v (he ▸ hmem)

/-- Tasks whose stores lie in `[lo t, hi t)`, with `hi s ≤ lo t` whenever `s < t`, store to
disjoint positions; the stores of the last task need no upper bound. -/
theorem storesDisjoint_of_bounds {trace : Nat → List (Access β)} {n : Nat} (lo hi : Nat → Nat)
    (hord : ∀ s t, s < t → t < n → hi s ≤ lo t)
    (hw : ∀ t < n, ∀ k (v : β), .store k v ∈ trace t → lo t ≤ k ∧ (t + 1 < n → k < hi t)) :
    StoresDisjoint trace n := by
  have ordered : ∀ s t k (v w : β), s < t → t < n → .store k v ∈ trace s →
      .store k w ∈ trace t → False := by
    intro s t k v w hst ht hs ht'
    have h1 := (hw s (hst.trans ht) k v hs).2 (by omega)
    have h2 := (hw t ht k w ht').1
    have := hord s t hst ht
    omega
  intro s t k v w hs ht hvs hwt
  rcases Nat.lt_trichotomy s t with hst | hst | hst
  · exact (ordered s t k v w hst ht hvs hwt).elim
  · exact hst
  · exact (ordered t s k w v hst hs hwt hvs).elim

/-- The stores at each position in a pool run do not depend on the interleaving. -/
theorem storedAt_poolRun {trace : Nat → List (Access β)} {n : Nat}
    {run run' : List (Nat × Access β)} (hdis : StoresDisjoint trace n)
    (hrun : IsPoolRun trace n run) (hrun' : IsPoolRun trace n run') (k : Nat) :
    storedAt k (run.map Prod.snd) = storedAt k (run'.map Prod.snd) := by
  obtain ⟨t, ht⟩ := exists_owner hdis k
  have only_t : ∀ {r : List (Nat × Access β)}, IsPoolRun trace n r →
      ∀ s e, (s, e) ∈ r → s ≠ t → ∀ v, e ≠ .store k v := by
    rintro r hr s e hm hst v rfl
    obtain ⟨hs, he⟩ := mem_trace_of_mem_run hr hm
    exact ht s hs hst v he
  rw [storedAt_eq_project (only_t hrun), storedAt_eq_project (only_t hrun'), hrun t, hrun' t]

/-- Any run of the pool leaves the output buffer as the sequential run in task order. -/
theorem applyStores_poolRun {trace : Nat → List (Access β)} {n : Nat}
    {run : List (Nat × Access β)} (hdis : StoresDisjoint trace n) (hrun : IsPoolRun trace n run)
    (out : Nat → β) :
    applyStores out (run.map Prod.snd) = applyStores out ((List.range n).flatMap trace) := by
  funext k
  rw [← sequentialRun_map_snd]
  exact applyStores_congr (storedAt_poolRun hdis hrun (isPoolRun_sequentialRun trace n) k)

end WeightCompression
