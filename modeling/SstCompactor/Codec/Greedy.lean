import Mathlib.Data.List.Basic

/-!
Cutting a list into runs greedily: elements are added to the current run until a test
on the run says it is full; a last run that is not full is kept if it is non-empty.
-/

set_option autoImplicit false

namespace Greedy

variable {α : Type} {full : List α → Bool}

def cut (full : List α → Bool) : List α → List α → List (List α)
  | run, [] => if run.isEmpty then [] else [run]
  | run, x :: xs =>
    if full (run ++ [x]) then (run ++ [x]) :: cut full [] xs else cut full (run ++ [x]) xs

theorem cut_flatten (run xs : List α) : (cut full run xs).flatten = run ++ xs := by
  induction xs generalizing run with
  | nil =>
    cases run with
    | nil => simp [cut]
    | cons a run => simp [cut]
  | cons x xs ih =>
    unfold cut
    split
    · simp [ih]
    · simp [ih]

/-- A run as the cut leaves it: elements that were not full, and one more. -/
def Run (full : List α → Bool) (c : List α) : Prop :=
  ∃ i x, c = i ++ [x] ∧ (i ≠ [] → full i = false)

theorem cut_run {run xs : List α} (hf : run ≠ [] → full run = false)
    (hr : run ≠ [] → Run full run) : ∀ c ∈ cut full run xs, Run full c := by
  induction xs generalizing run with
  | nil =>
    intro c hc
    cases run with
    | nil => simp [cut] at hc
    | cons a run =>
      have hca : c = a :: run := by simpa [cut] using hc
      rw [hca]
      exact hr (by simp)
  | cons x xs ih =>
    intro c hc
    have hx : Run full (run ++ [x]) := ⟨run,x,rfl,hf⟩
    unfold cut at hc
    split at hc
    · rcases List.mem_cons.mp hc with rfl | hc
      · exact hx
      · exact ih (by simp) (by simp) c hc
    · rename_i hn
      exact ih (fun _ => by simpa using hn) (fun _ => hx) c hc

variable (full) in
theorem cut_nil_run (xs : List α) : ∀ c ∈ cut full [] xs, Run full c :=
  cut_run (by simp) (by simp)

theorem cut_full (run xs : List α) : ∀ c ∈ (cut full run xs).dropLast, full c = true := by
  induction xs generalizing run with
  | nil =>
    intro c hc
    cases run with
    | nil => simp [cut] at hc
    | cons a run => simp [cut] at hc
  | cons x xs ih =>
    intro c hc
    unfold cut at hc
    split at hc
    · rename_i hx
      by_cases hn : cut full [] xs = []
      · simp [hn] at hc
      · rw [List.dropLast_cons_of_ne_nil hn] at hc
        rcases List.mem_cons.mp hc with rfl | hc
        · exact hx
        · exact ih [] c hc
    · exact ih (run ++ [x]) c hc

theorem Run.ne_nil {c : List α} (h : Run full c) : c ≠ [] := by
  obtain ⟨i,x,rfl,-⟩ := h
  simp

theorem flatten_length_le {b : Nat} {ls : List (List α)} (h : ∀ c ∈ ls, c.length ≤ b) :
    ls.flatten.length ≤ ls.length*b := by
  induction ls with
  | nil => simp
  | cons c ls ih =>
    have hc := h c (by simp)
    have ht := ih (fun d hd => h d (by simp [hd]))
    simp only [List.flatten_cons,List.length_append,List.length_cons,Nat.add_mul] at *
    omega

/-- If a run that is not full has at most `b` elements, the cut makes at least one run
for each `b+1` elements. -/
theorem length_le_cut (b : Nat) (hb : ∀ c : List α, full c = false → c.length ≤ b)
    (xs : List α) : xs.length ≤ (cut full [] xs).length*(b+1) := by
  have hlen : ∀ c ∈ cut full [] xs, c.length ≤ b+1 := by
    intro c hc
    obtain ⟨i,x,rfl,hi⟩ := cut_nil_run full xs c hc
    by_cases hn : i = []
    · simp [hn]
    · simpa using hb i (hi hn)
  have hflat := flatten_length_le hlen
  simpa [cut_flatten] using hflat

end Greedy
