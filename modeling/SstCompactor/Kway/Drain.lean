import Mathlib.Data.List.Basic

/-!
What a k-way merge is, independent of how the next element is found: a family of
lists is emptied by taking, again and again, a head that is no larger than any other
head. Every element leaves together with the index of the list it came from.
-/

set_option autoImplicit false

namespace Kway

variable {α : Type} {le : α → α → Prop}

inductive Drains (le : α → α → Prop) : List (List α) → List (Nat × α) → Prop where
  | done {ls : List (List α)} : (∀ l ∈ ls, l = []) → Drains le ls []
  | pop {ls : List (List α)} {out : List (Nat × α)} {i : Nat} {e : α} {rest : List α} :
      ls[i]? = some (e :: rest) → (∀ x xs, x :: xs ∈ ls → le e x) →
      Drains le (ls.set i rest) out → Drains le ls ((i,e) :: out)

def lane (i : Nat) (out : List (Nat × α)) : List α :=
  (out.filter (fun p => p.1 == i)).map Prod.snd

theorem flatten_of_empty {ls : List (List α)} (h : ∀ l ∈ ls, l = []) : ls.flatten = [] :=
  List.flatten_eq_nil_iff.mpr h

theorem flatten_pop {ls : List (List α)} {i : Nat} {e : α} {rest : List α}
    (h : ls[i]? = some (e :: rest)) : (e :: (ls.set i rest).flatten).Perm ls.flatten := by
  obtain ⟨hi,hg⟩ := List.getElem?_eq_some_iff.mp h
  have hls : ls = ls.take i ++ (e :: rest) :: ls.drop (i+1) := by
    rw [← hg,← List.drop_eq_getElem_cons hi,List.take_append_drop]
  rw [List.set_eq_take_append_cons_drop,if_pos hi]
  conv_rhs => rw [hls]
  simp only [List.flatten_append,List.flatten_cons,List.cons_append]
  exact List.perm_middle.symm

theorem Drains.perm {ls : List (List α)} {out : List (Nat × α)} (h : Drains le ls out) :
    (out.map Prod.snd).Perm ls.flatten := by
  induction h with
  | done hn => simp [flatten_of_empty hn]
  | pop hi _ _ ih => exact (ih.cons _).trans (flatten_pop hi)

/-- Each list's elements leave in their own order, and all of them leave. -/
theorem Drains.lane {ls : List (List α)} {out : List (Nat × α)} (h : Drains le ls out)
    (i : Nat) : lane i out = (ls[i]?).getD [] := by
  induction h with
  | @done ls hn =>
    cases hg : ls[i]? with
    | none => rfl
    | some l => simp [Kway.lane,hn l (List.mem_of_getElem? hg)]
  | @pop ls out j e rest hj _ _ ih =>
    by_cases hij : i = j
    · subst hij
      obtain ⟨hl,-⟩ := List.getElem?_eq_some_iff.mp hj
      have hset : (ls.set i rest)[i]? = some rest := by simp [hl]
      rw [hset] at ih
      simp only [Kway.lane] at ih
      simp [Kway.lane,ih,hj]
    · have hji : (j == i) = false := by simp; omega
      rw [List.getElem?_set_ne (by omega)] at ih
      simp only [Kway.lane] at ih
      simp [Kway.lane,hji,ih]

theorem Drains.sorted {ls : List (List α)} {out : List (Nat × α)}
    (trans : ∀ a b c, a ∈ ls.flatten → b ∈ ls.flatten → c ∈ ls.flatten →
      le a b → le b c → le a c)
    (hs : ∀ l ∈ ls, l.Pairwise le) (h : Drains le ls out) : (out.map Prod.snd).Pairwise le := by
  induction h with
  | done _ => simp
  | @pop ls out i e rest hi hmin hd ih =>
    have hmem : e :: rest ∈ ls := List.mem_of_getElem? hi
    have hperm := flatten_pop hi
    have hsub : ∀ x, x ∈ (ls.set i rest).flatten → x ∈ ls.flatten :=
      fun x hx => hperm.subset (List.mem_cons_of_mem e hx)
    have he : e ∈ ls.flatten := hperm.subset List.mem_cons_self
    have hrest : ∀ l ∈ ls.set i rest, l.Pairwise le := by
      intro l hl
      rcases List.mem_or_eq_of_mem_set hl with hl | rfl
      · exact hs l hl
      · exact (List.pairwise_cons.mp (hs _ hmem)).2
    refine List.pairwise_cons.mpr ⟨?_,ih ?_ hrest⟩
    · -- A later element sits in some list at or behind that list's head, or behind `e`.
      intro x hx
      obtain ⟨l,hl,hxl⟩ := List.mem_flatten.mp (hd.perm.subset hx)
      rcases List.mem_or_eq_of_mem_set hl with hl | rfl
      · obtain ⟨y,ys,rfl⟩ := List.exists_cons_of_ne_nil (List.ne_nil_of_mem hxl)
        have hy := hmin y ys hl
        rcases List.mem_cons.mp hxl with rfl | hxy
        · exact hy
        · have hyx := (List.pairwise_cons.mp (hs _ hl)).1 x hxy
          have hyf : y ∈ ls.flatten := List.mem_flatten.mpr ⟨_,hl,List.mem_cons_self⟩
          exact trans e y x he hyf (List.mem_flatten.mpr ⟨_,hl,hxl⟩) hy hyx
      · exact (List.pairwise_cons.mp (hs _ hmem)).1 x hxl
    · exact fun a b c ha hb hc => trans a b c (hsub a ha) (hsub b hb) (hsub c hc)

/-- Draining is decided up to ties: two drained sequences of one family carry the same
keys in the same order when tied elements have equal keys. -/
theorem Drains.keys_unique {β : Type} (key : α → β) (leK : β → β → Prop)
    {ls : List (List α)} {out out' : List (Nat × α)}
    (trans : ∀ a b c, a ∈ ls.flatten → b ∈ ls.flatten → c ∈ ls.flatten →
      leK (key a) (key b) → leK (key b) (key c) → leK (key a) (key c))
    (antisymm : ∀ a b, a ∈ ls.flatten → b ∈ ls.flatten →
      leK (key a) (key b) → leK (key b) (key a) → key a = key b)
    (hs : ∀ l ∈ ls, l.Pairwise (fun a b => leK (key a) (key b)))
    (h : Drains (fun a b => leK (key a) (key b)) ls out)
    (h' : Drains (fun a b => leK (key a) (key b)) ls out') :
    (out.map Prod.snd).map key = (out'.map Prod.snd).map key := by
  have hp : (out.map Prod.snd).Perm (out'.map Prod.snd) := h.perm.trans h'.perm.symm
  refine List.Perm.eq_of_pairwise ?_ (List.pairwise_map.mpr (h.sorted trans hs))
    (List.pairwise_map.mpr (h'.sorted trans hs)) (hp.map key)
  intro x y hx hy hxy hyx
  obtain ⟨a,ha,rfl⟩ := List.mem_map.mp hx
  obtain ⟨b,hb,rfl⟩ := List.mem_map.mp hy
  exact antisymm a b (h.perm.subset ha) (h'.perm.subset hb) hxy hyx

end Kway
