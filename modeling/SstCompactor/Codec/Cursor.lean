import Mathlib.Data.List.Basic

/-!
Reading items one after another from a byte position until the end of the input is
reached. `step` reads one item; the state carries what a later item may refer back to.
-/

set_option autoImplicit false

namespace Cursor

variable {α σ ε : Type} (step : σ → Nat → Except ε (α × σ × Nat)) (stop : Nat) (dry : ε)

def walk : Nat → σ → Nat → List α × Except ε Unit
  | 0, _, pos => ([],if pos < stop then .error dry else .ok ())
  | fuel+1, s, pos =>
    if pos < stop then
      match step s pos with
      | .error e => ([],.error e)
      | .ok (a,s',pos') =>
        let r := walk fuel s' pos'
        (a :: r.1,r.2)
    else ([],.ok ())

/-- The items `as` lie between two positions, each ending after it starts. -/
inductive Path : σ → Nat → List α → σ → Nat → Prop where
  | nil {s : σ} {pos : Nat} : Path s pos [] s pos
  | cons {s s₁ s' : σ} {pos p₁ p' : Nat} {a : α} {as : List α} :
      step s pos = .ok (a,s₁,p₁) → pos < p₁ → Path s₁ p₁ as s' p' → Path s pos (a :: as) s' p'

variable {step stop dry}

theorem Path.le {s s' : σ} {pos p' : Nat} {as : List α} (h : Path step s pos as s' p') :
    pos ≤ p' := by
  induction h with
  | nil => exact Nat.le_refl _
  | cons _ hlt _ ih => omega

theorem walk_of_le {fuel : Nat} {s : σ} {pos : Nat} (h : stop ≤ pos) :
    walk step stop dry fuel s pos = ([],.ok ()) := by
  have hn : ¬ pos < stop := Nat.not_lt.mpr h
  cases fuel with
  | zero => simp [walk,hn]
  | succ fuel => simp [walk,hn]

theorem walk_step {fuel : Nat} {s s' : σ} {pos pos' : Nat} {a : α} (hlt : pos < stop)
    (h : step s pos = .ok (a,s',pos')) :
    walk step stop dry (fuel+1) s pos =
      (a :: (walk step stop dry fuel s' pos').1,(walk step stop dry fuel s' pos').2) := by
  simp [walk,hlt,h]

theorem walk_error {fuel : Nat} {s : σ} {pos : Nat} {e : ε} (hlt : pos < stop)
    (h : step s pos = .error e) : walk step stop dry (fuel+1) s pos = ([],.error e) := by
  simp [walk,hlt,h]

variable (dry) in
theorem walk_path {s s' : σ} {pos p' fuel : Nat} {as : List α} (h : Path step s pos as s' p')
    (hp : p' ≤ stop) (hf : stop-pos ≤ fuel) :
    ∃ fuel', stop-p' ≤ fuel' ∧ walk step stop dry fuel s pos =
      (as ++ (walk step stop dry fuel' s' p').1,(walk step stop dry fuel' s' p').2) := by
  induction h generalizing fuel with
  | nil => exact ⟨fuel,hf,rfl⟩
  | @cons s s₁ s' pos p₁ p' a as hs hlt hrest ih =>
    have hle := hrest.le
    obtain ⟨fuel,rfl⟩ := Nat.exists_eq_succ_of_ne_zero (show fuel ≠ 0 by omega)
    obtain ⟨fuel',hf',hw⟩ := @ih fuel hp (by omega)
    exact ⟨fuel',hf',by rw [walk_step (by omega) hs,hw]; rfl⟩

theorem walk_path_end {s s' : σ} {pos fuel : Nat} {as : List α}
    (h : Path step s pos as s' stop) (hf : stop-pos ≤ fuel) :
    walk step stop dry fuel s pos = (as,.ok ()) := by
  obtain ⟨fuel',-,hw⟩ := walk_path dry h (Nat.le_refl _) hf
  rw [hw,walk_of_le (Nat.le_refl _)]
  simp

variable (dry) in
/-- A walk whose steps move forward within the input is a path that ends at the end of the
input, or at the step that fails. -/
theorem walk_ends {s : σ} {pos fuel : Nat}
    (hstep : ∀ s pos a s' pos', step s pos = .ok (a,s',pos') → pos < pos' ∧ pos' ≤ stop)
    (hp : pos ≤ stop) (hf : stop-pos ≤ fuel) :
    ∃ s' p', Path step s pos (walk step stop dry fuel s pos).1 s' p' ∧ p' ≤ stop ∧
      (p' = stop ∧ (walk step stop dry fuel s pos).2 = .ok () ∨
        p' < stop ∧ ∃ e, step s' p' = .error e ∧ (walk step stop dry fuel s pos).2 = .error e) := by
  induction fuel generalizing s pos with
  | zero =>
    obtain rfl : pos = stop := by omega
    rw [walk_of_le (Nat.le_refl _)]
    exact ⟨s,pos,.nil,Nat.le_refl _,.inl ⟨rfl,rfl⟩⟩
  | succ fuel ih =>
    by_cases hlt : pos < stop
    · cases hs : step s pos with
      | error e =>
        rw [walk_error hlt hs]
        exact ⟨s,pos,.nil,hp,.inr ⟨hlt,e,hs,rfl⟩⟩
      | ok r =>
        obtain ⟨a,s₁,p₁⟩ := r
        obtain ⟨h₁,h₂⟩ := hstep s pos a s₁ p₁ hs
        obtain ⟨s',p',hpath,hp',hend⟩ := @ih s₁ p₁ h₂ (by omega)
        rw [walk_step hlt hs]
        exact ⟨s',p',.cons hs h₁ hpath,hp',hend⟩
    · obtain rfl : pos = stop := by omega
      rw [walk_of_le (Nat.le_refl _)]
      exact ⟨s,pos,.nil,Nat.le_refl _,.inl ⟨rfl,rfl⟩⟩

variable (dry) in
theorem walk_error_iff {s : σ} {pos fuel : Nat} {e : ε}
    (hstep : ∀ s pos a s' pos', step s pos = .ok (a,s',pos') → pos < pos' ∧ pos' ≤ stop)
    (hp : pos ≤ stop) (hf : stop-pos ≤ fuel) :
    (walk step stop dry fuel s pos).2 = .error e ↔
      ∃ as s' p', Path step s pos as s' p' ∧ p' < stop ∧ step s' p' = .error e := by
  constructor
  · intro h
    obtain ⟨s',p',hpath,-,⟨-,hok⟩ | ⟨hlt,e',he',hend⟩⟩ := walk_ends dry hstep hp hf
    · rw [hok] at h
      contradiction
    · obtain rfl := Except.error.inj (hend.symm.trans h)
      exact ⟨_,s',p',hpath,hlt,he'⟩
  · rintro ⟨as,s',p',hpath,hlt,he⟩
    obtain ⟨fuel',hf',hw⟩ := walk_path dry hpath (Nat.le_of_lt hlt) hf
    obtain ⟨fuel',rfl⟩ := Nat.exists_eq_succ_of_ne_zero (show fuel' ≠ 0 by omega)
    rw [hw,walk_error hlt he]

theorem Path.le_of_error {s s₁ s₂ : σ} {pos p₁ p₂ : Nat} {as bs : List α} {e : ε}
    (h₁ : Path step s pos as s₁ p₁) (h₂ : Path step s pos bs s₂ p₂)
    (he : step s₂ p₂ = .error e) : p₁ ≤ p₂ := by
  induction h₂ generalizing as with
  | nil =>
    cases h₁ with
    | nil => exact Nat.le_refl _
    | cons hs _ _ =>
      rw [he] at hs
      contradiction
  | cons hs hlt hrest ih =>
    cases h₁ with
    | nil => exact Nat.le_of_lt (Nat.lt_of_lt_of_le hlt hrest.le)
    | cons hs' _ hrest' =>
      rw [hs] at hs'
      obtain ⟨rfl,rfl,rfl⟩ : _ ∧ _ ∧ _ := by simpa using hs'
      exact ih hrest' he

end Cursor
