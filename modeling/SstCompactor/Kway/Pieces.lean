import Mathlib.Data.List.Basic
import Mathlib.Data.List.Forall2

/-!
Cutting at a sequence of places. A cut divides a whole into the part before it and the
part after it; the second part is cut on at the places that follow.
-/

set_option autoImplicit false

namespace Pieces

section
variable {β γ δ : Type}

def pieces (split : β → γ → γ × γ) : List β → γ → List γ
  | [], x => [x]
  | c :: cs, x => (split c x).1 :: pieces split cs (split c x).2

theorem pieces_forall (split : β → γ → γ × γ) {P : γ → Prop}
    (h : ∀ c x, P x → P (split c x).1 ∧ P (split c x).2) (cs : List β) {x : γ} (hx : P x) :
    ∀ y ∈ pieces split cs x, P y := by
  induction cs generalizing x with
  | nil => simpa [pieces] using hx
  | cons c cs ih =>
    obtain ⟨h₁,h₂⟩ := h c x hx
    intro y hy
    rcases List.mem_cons.mp hy with rfl | hy
    · exact h₁
    · exact ih h₂ y hy

theorem pieces_map (split : β → γ → γ × γ) (split' : β → δ → δ × δ) {P : γ → Prop}
    (f : γ → δ) (hP : ∀ c x, P x → P (split c x).2)
    (hf : ∀ c x, P x → f (split c x).1 = (split' c (f x)).1 ∧
      f (split c x).2 = (split' c (f x)).2) (cs : List β) {x : γ} (hx : P x) :
    (pieces split cs x).map f = pieces split' cs (f x) := by
  induction cs generalizing x with
  | nil => rfl
  | cons c cs ih =>
    obtain ⟨h₁,h₂⟩ := hf c x hx
    simp only [pieces,List.map_cons,h₁,ih (hP c x hx),h₂]

end

section
variable {α β : Type} (below : α → β → Bool)

def splitList (c : β) (xs : List α) : List α × List α :=
  (xs.filter (fun x => below x c),xs.filter (fun x => !below x c))

def splitFamily (c : β) (ls : List (List α)) : List (List α) × List (List α) :=
  (ls.map (fun l => (splitList below c l).1),ls.map (fun l => (splitList below c l).2))

variable {below}

/-- Nothing before a cut stands behind something after it. -/
def Ascending (below : α → β → Bool) (xs : List α) : Prop :=
  xs.Pairwise (fun a b => ∀ c, below b c = true → below a c = true)

theorem Ascending.sublist {xs ys : List α} (h : Ascending below xs) (hs : ys.Sublist xs) :
    Ascending below ys :=
  List.Pairwise.sublist hs h

theorem splitList_append {xs : List α} (h : Ascending below xs) (c : β) :
    (splitList below c xs).1 ++ (splitList below c xs).2 = xs := by
  induction xs with
  | nil => rfl
  | cons x xs ih =>
    obtain ⟨hx,hxs⟩ := List.pairwise_cons.mp h
    have hrest := ih hxs
    cases hb : below x c with
    | true => simpa [splitList,hb] using hrest
    | false =>
      have hall : ∀ y ∈ xs, below y c = false := by
        intro y hy
        by_contra hne
        rw [hx y hy c (by simpa using hne)] at hb
        contradiction
      have hnone : xs.filter (fun y => below y c) = [] :=
        List.filter_eq_nil_iff.mpr (fun y hy => by simp [hall y hy])
      simp only [splitList] at hrest ⊢
      rw [hnone,List.nil_append] at hrest
      rw [List.filter_cons_of_neg (by simp [hb]),List.filter_cons_of_pos (by simp [hb]),hnone,
        hrest]
      rfl

theorem pieces_flatten {xs : List α} (h : Ascending below xs) (cs : List β) :
    (pieces (splitList below) cs xs).flatten = xs := by
  induction cs generalizing xs with
  | nil => simp [pieces]
  | cons c cs ih =>
    have hrest := ih (h.sublist (List.filter_sublist (p:=fun x => !below x c)))
    rw [pieces,List.flatten_cons]
    exact (congrArg _ hrest).trans (splitList_append h c)

theorem family_nil (cs : List β) :
    pieces (splitFamily below) cs [] = List.replicate (cs.length+1) [] := by
  induction cs with
  | nil => rfl
  | cons c cs ih =>
    rw [pieces,List.length_cons,List.replicate_succ]
    exact congrArg _ ih

theorem family_snoc (cs : List β) (ls : List (List α)) (l : List α) :
    pieces (splitFamily below) cs (ls ++ [l]) =
      List.zipWith (fun acc piece => acc ++ [piece]) (pieces (splitFamily below) cs ls)
        (pieces (splitList below) cs l) := by
  induction cs generalizing ls l with
  | nil => rfl
  | cons c cs ih =>
    simp only [pieces,splitFamily,List.map_append,List.map_cons,List.map_nil,
      List.zipWith_cons_cons,List.cons.injEq,true_and]
    exact ih _ _

end

theorem forall₂_zipWith {α β γ α' β' γ' : Type} {R : α → α' → Prop} {S : β → β' → Prop}
    {T : γ → γ' → Prop} {f : α → β → γ} {g : α' → β' → γ'}
    (hfg : ∀ a a' b b', R a a' → S b b' → T (f a b) (g a' b')) {as : List α} {as' : List α'}
    {bs : List β} {bs' : List β'} (ha : List.Forall₂ R as as') (hb : List.Forall₂ S bs bs') :
    List.Forall₂ T (List.zipWith f as bs) (List.zipWith g as' bs') := by
  induction ha generalizing bs bs' with
  | nil => exact .nil
  | cons h _ ih =>
    cases hb with
    | nil => exact .nil
    | cons h' hb => exact .cons (hfg _ _ _ _ h h') (ih hb)

end Pieces
