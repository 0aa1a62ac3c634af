import SstCompactor.Kway.Mirror
import Mathlib.Data.List.Induction

set_option autoImplicit false

namespace Kway
open Kway.Bracket Tournament

section
variable {α : Type} (lt : α → α → Bool)

def goesLeft (side : Bool) (x y : α) : Bool := if side then lt x y else !lt y x

/-- The flag of a node when the lists of its halves have been merged. -/
def sideAfter (side : Bool) : List α → List α → Bool
  | [], [] => side
  | _ :: _, [] => true
  | [], _ :: _ => false
  | x :: xs, y :: ys =>
    if goesLeft lt side x y then sideAfter true xs (y :: ys) else sideAfter false (x :: xs) ys
termination_by xs ys => xs.length+ys.length

theorem goesLeft_swap (side : Bool) (x y : α) :
    goesLeft lt (!side) y x = !goesLeft lt side x y := by
  cases side <;> simp [goesLeft]

theorem sideAfter_left {side : Bool} {x : α} {ys : List α} (xs : List α)
    (h : ∀ y ∈ ys.head?, goesLeft lt side x y = true) :
    sideAfter lt side (x :: xs) ys = sideAfter lt true xs ys := by
  cases ys with
  | nil => cases xs <;> simp [sideAfter]
  | cons y ys => rw [sideAfter,if_pos (h y rfl)]

theorem sideAfter_right {side : Bool} {y : α} {xs : List α} (ys : List α)
    (h : ∀ x ∈ xs.head?, goesLeft lt side x y = false) :
    sideAfter lt side xs (y :: ys) = sideAfter lt false xs ys := by
  cases xs with
  | nil => cases ys <;> simp [sideAfter]
  | cons x xs => rw [sideAfter,if_neg (by simp [h x rfl])]

theorem sideAfter_swap (side : Bool) (xs ys : List α) :
    sideAfter lt (!side) ys xs = !sideAfter lt side xs ys := by
  fun_induction sideAfter lt side xs ys with
  | case1 side => simp [sideAfter]
  | case2 side x xs => simp [sideAfter]
  | case3 side y ys => simp [sideAfter]
  | case4 side x xs y ys h ih =>
    rw [← ih]
    exact sideAfter_right lt xs (by simp [goesLeft_swap,h])
  | case5 side x xs y ys h ih =>
    rw [← ih]
    exact sideAfter_left lt ys (by simpa [goesLeft_swap] using h)

theorem sideAfter_last (side : Bool) {x : α} {ys : List α}
    (h : ∀ y ∈ ys, lt y x = true ∧ lt x y = false) : sideAfter lt side [x] ys = true := by
  induction ys generalizing side with
  | nil => simp [sideAfter]
  | cons y ys ih =>
    have hy := h y (by simp)
    have hr : goesLeft lt side x y = false := by cases side <;> simp [goesLeft,hy]
    rw [sideAfter,if_neg (by simp [hr])]
    exact ih false (fun z hz => h z (List.mem_cons_of_mem y hz))

theorem sideAfter_above (side : Bool) (xs : List α) {x : α} {ys : List α}
    (h : ∀ y ∈ ys, lt y x = true ∧ lt x y = false) :
    sideAfter lt side (xs ++ [x]) ys = true := by
  fun_induction sideAfter lt side xs ys with
  | case1 side => simp [sideAfter]
  | case2 side x' xs => simp [sideAfter]
  | case3 side y ys => exact sideAfter_last lt side h
  | case4 side x' xs y ys hl ih =>
    rw [List.cons_append,sideAfter,if_pos hl]
    exact ih h
  | case5 side x' xs y ys hl ih =>
    rw [List.cons_append,sideAfter,if_neg hl]
    exact ih (fun z hz => h z (List.mem_cons_of_mem y hz))

theorem sideAfter_one (xs : List α) {x y : α} (hxy : lt x y = false) :
    sideAfter lt true (xs ++ [x]) [y] = true := by
  induction xs with
  | nil => simp [sideAfter,goesLeft,hxy]
  | cons x' xs ih =>
    rw [List.cons_append,sideAfter]
    split
    · exact ih
    · simp [sideAfter]

theorem sideAfter_more (side : Bool) (x' : α) (xs : List α) {x y : α} (hxy : lt x y = false) :
    sideAfter lt side (x' :: xs ++ [x]) [y] = true := by
  rw [List.cons_append,sideAfter]
  split
  · exact sideAfter_one lt xs hxy
  · simp [sideAfter]

theorem sideAfter_level (side : Bool) {xs ys : List α} {x y : α}
    (hxy : lt x y = false) (hyx : lt y x = false) :
    sideAfter lt side (xs ++ [x]) (ys ++ [y]) = sideAfter lt side xs ys := by
  fun_induction sideAfter lt side xs ys with
  | case1 side => cases side <;> simp [sideAfter,goesLeft,hxy,hyx]
  | case2 side x' xs => exact sideAfter_more lt side x' xs hxy
  | case3 side y' ys =>
    have h := sideAfter_more lt (!side) y' ys hyx
    rw [sideAfter_swap] at h
    simpa using h
  | case4 side x' xs y' ys hl ih =>
    rw [List.cons_append,List.cons_append,sideAfter,if_pos hl]
    exact ih
  | case5 side x' xs y' ys hl ih =>
    rw [List.cons_append,List.cons_append,sideAfter,if_neg hl]
    exact ih

theorem pick_after_left {β : Type} (f : β → α) (x : β) (xs ys : List β) :
    some ((pick (!sideAfter lt true (xs.map f) (ys.map f)) xs.getLast? ys.getLast?).getD x) =
      pick (!sideAfter lt true (xs.map f) (ys.map f)) (some (xs.getLast?.getD x))
        ys.getLast? := by
  cases hy : ys.getLast? with
  | none => cases xs.getLast? <;> rfl
  | some y =>
    cases hx : xs.getLast? with
    | some z => rfl
    | none =>
      cases ys with
      | nil => simp at hy
      | cons y' ys =>
        rw [List.getLast?_eq_none_iff.mp hx]
        simp [sideAfter,pick]

theorem pick_after_right {β : Type} (f : β → α) (x : β) (xs ys : List β) :
    some ((pick (!sideAfter lt false (xs.map f) (ys.map f)) xs.getLast? ys.getLast?).getD x) =
      pick (!sideAfter lt false (xs.map f) (ys.map f)) xs.getLast?
        (some (ys.getLast?.getD x)) := by
  cases hx : xs.getLast? with
  | none => cases ys.getLast? <;> rfl
  | some z =>
    cases hy : ys.getLast? with
    | some y => rfl
    | none =>
      cases xs with
      | nil => simp at hx
      | cons x' xs =>
        rw [List.getLast?_eq_none_iff.mp hy]
        simp [sideAfter,pick]

theorem head_emits_map (t : Bracket α) {y : α}
    (hy : y ∈ ((t.emits lt).map Prod.snd).head?) : ∃ i, t.front lt = some (i,y) := by
  rw [List.head?_map,head_emits] at hy
  obtain ⟨p,hp,rfl⟩ := Option.map_eq_some_iff.mp hy
  exact ⟨p.1,hp⟩

/-- Of two halves the one that the flag points to hands out the last element. -/
theorem getLast_emits_node (side : Bool) (a b : Bracket α) :
    ((Bracket.node side a b).emits lt).getLast? =
      pick (!sideAfter lt side ((a.emits lt).map Prod.snd) ((b.emits lt).map Prod.snd))
        (a.emits lt).getLast? (b.emits lt).getLast? := by
  generalize ht : Bracket.node side a b = t
  induction t using emits_induction lt generalizing side a b with
  | none t hf =>
    subst ht
    have hc := (front_none lt).mp hf
    rw [contents_node,List.append_eq_nil_iff] at hc
    rw [emits_none hf,emits_none ((front_none lt).mpr hc.1),emits_none ((front_none lt).mpr hc.2)]
    rfl
  | some t x hf ih =>
    subst ht
    rw [emits_some hf,List.getLast?_cons]
    rw [front] at hf
    cases ht : takesLeft lt side (a.front lt) (b.front lt) with
    | true =>
      rw [if_pos ht] at hf
      rw [ih true (a.pop lt) b (by rw [Bracket.pop,if_pos ht]),emits_some hf,List.getLast?_cons,
        List.map_cons,sideAfter_left]
      · exact pick_after_left lt Prod.snd x _ _
      · intro y hy
        obtain ⟨i,hfb⟩ := head_emits_map lt b hy
        rwa [hf,hfb] at ht
    | false =>
      rw [if_neg (by simp [ht])] at hf
      rw [ih false a (b.pop lt) (by rw [Bracket.pop,if_neg (by simp [ht])]),emits_some hf,
        List.getLast?_cons,List.map_cons,sideAfter_right]
      · exact pick_after_right lt Prod.snd x _ _
      · intro y hy
        obtain ⟨i,hfa⟩ := head_emits_map lt a hy
        rwa [hf,hfa] at ht

end

section
variable {α : Type} (cmp : α → α → Ordering)

def ltOf (x y : α) : Bool := cmp x y == .lt

def flagOf (side : Bool) : Ordering → Bool
  | .gt => true
  | .lt => false
  | .eq => side

namespace Bracket

def Lower (p : α → Bool) : Prop := ∀ x y, p x = true → p y = false → cmp x y = .lt

def Sorted (t : Bracket α) : Prop := ∀ l ∈ t.leaves, l.2.Pairwise (fun a b => cmp a b ≠ .gt)

def spent (p : α → Bool) (t : Bracket α) : Bracket α :=
  t.popN (ltOf cmp) (t.contents.countP (fun x => p x.2))

def emitsOf (p : α → Bool) (t : Bracket α) : List α :=
  ((t.emits (ltOf cmp)).map Prod.snd).filter p

variable {cmp}

theorem sorted_node {side : Bool} {a b : Bracket α} :
    (Bracket.node side a b).Sorted cmp ↔ a.Sorted cmp ∧ b.Sorted cmp := by
  simp [Sorted,leaves,or_imp,forall_and]

theorem Sorted.pop {t : Bracket α} (h : t.Sorted cmp) (lt : α → α → Bool) :
    (t.pop lt).Sorted cmp := by
  induction t with
  | leaf i l => simpa [Sorted,leaves,Bracket.pop] using (h (i,l) (by simp [leaves])).tail
  | node side a b iha ihb =>
    obtain ⟨ha,hb⟩ := sorted_node.mp h
    rw [Bracket.pop]
    split
    · exact sorted_node.mpr ⟨iha ha,hb⟩
    · exact sorted_node.mpr ⟨ha,ihb hb⟩

section
variable {p : α → Bool} {t : Bracket α}

theorem spent_front {x : Nat × α} (hf : t.front (ltOf cmp) = some x) (hx : p x.2 = true) :
    spent cmp p t = spent cmp p (t.pop (ltOf cmp)) ∧
      emitsOf cmp p t = x.2 :: emitsOf cmp p (t.pop (ltOf cmp)) := by
  have hcount := (contents_pop hf).countP_eq (fun x => p x.2)
  rw [List.countP_cons,if_pos hx] at hcount
  constructor
  · rw [spent,hcount,popN]
    rfl
  · rw [emitsOf,emits_some hf,List.map_cons,List.filter_cons_of_pos hx]
    rfl

theorem spent_upper (h : ∀ y ∈ t.contents, p y.2 = false) :
    spent cmp p t = t ∧ emitsOf cmp p t = [] := by
  constructor
  · rw [spent,List.countP_eq_zero.mpr (fun x hx => by simp [h x hx]),popN]
  · rw [emitsOf,List.filter_eq_nil_iff]
    intro y hy
    obtain ⟨z,hz,rfl⟩ := List.mem_map.mp hy
    simp [h z ((emits_perm _ t).subset hz)]

end

theorem spent_node_upper {p : α → Bool} (side : Bool) {a b : Bracket α}
    (h : ∀ y ∈ (Bracket.node side a b).contents, p y.2 = false) :
    spent cmp p (.node side a b) =
      .node (sideAfter (ltOf cmp) side (emitsOf cmp p a) (emitsOf cmp p b))
        (spent cmp p a) (spent cmp p b) := by
  have ha : ∀ y ∈ a.contents, p y.2 = false := fun y hy => h y (by simp [hy])
  have hb : ∀ y ∈ b.contents, p y.2 = false := fun y hy => h y (by simp [hy])
  rw [(spent_upper h).1,(spent_upper ha).1,(spent_upper ha).2,(spent_upper hb).1,
    (spent_upper hb).2,sideAfter]

end Bracket

variable {cmp} in
theorem sorted_fullUnder {ls : List (List α)}
    (hs : ∀ l ∈ ls, l.Pairwise (fun a b => cmp a b ≠ .gt)) (k h n : Nat) :
    (fullUnder k ls h n).Sorted cmp := by
  induction h generalizing n with
  | zero =>
    intro l hl
    rw [fullUnder,leaves,List.mem_singleton] at hl
    subst hl
    cases hi : ls[n-k]? with
    | none => exact List.Pairwise.nil
    | some l => exact hs l (List.mem_of_getElem? hi)
  | succ h ih => exact sorted_node.mpr ⟨ih (2*n),ih (2*n+1)⟩

section
variable {cmp} [Std.TransCmp cmp]

theorem ltOf_of_lt {x y : α} (h : cmp x y = .lt) : ltOf cmp x y = true ∧ ltOf cmp y x = false := by
  simp [ltOf,h,Std.OrientedCmp.gt_of_lt h]

theorem le_of_not_ltOf {x y : α} (h : ltOf cmp y x = false) : cmp x y ≠ .gt := by
  intro hgt
  rw [ltOf,Std.OrientedCmp.gt_iff_lt.mp hgt] at h
  exact absurd h (by decide)

theorem cmp_trans {x y z : α} (h₁ : cmp x y ≠ .gt) (h₂ : cmp y z ≠ .gt) : cmp x z ≠ .gt :=
  Ordering.isLE_iff_ne_gt.mp (Std.TransCmp.isLE_trans (Ordering.isLE_iff_ne_gt.mpr h₁)
    (Ordering.isLE_iff_ne_gt.mpr h₂))

theorem le_of_goesLeft {side : Bool} {x y : α} (h : goesLeft (ltOf cmp) side x y = true) :
    cmp x y ≠ .gt := by
  cases side with
  | true =>
    have hlt : cmp x y = .lt := by simpa [goesLeft,ltOf] using h
    simp [hlt]
  | false => exact le_of_not_ltOf (by simpa [goesLeft] using h)

theorem le_of_goesRight {side : Bool} {x y : α} (h : goesLeft (ltOf cmp) side x y = false) :
    cmp y x ≠ .gt := by
  have hswap := goesLeft_swap (ltOf cmp) side x y
  rw [h] at hswap
  exact le_of_goesLeft hswap

theorem isLE_last {xs : List α} {x : α} (h : (xs ++ [x]).Pairwise (fun a b => cmp a b ≠ .gt)) :
    ∀ y ∈ xs ++ [x], (cmp y x).isLE := by
  intro y hy
  rcases List.mem_append.mp hy with hy | hy
  · exact Ordering.isLE_iff_ne_gt.mpr ((List.pairwise_append.mp h).2.2 y hy x (by simp))
  · rw [List.mem_singleton.mp hy]
    exact Std.ReflCmp.isLE_rfl

theorem sideAfter_reverse (side : Bool) {xs ys : List α}
    (hx : xs.Pairwise (fun a b => cmp a b ≠ .gt)) (hy : ys.Pairwise (fun a b => cmp a b ≠ .gt)) :
    sideAfter (ltOf cmp) side xs ys =
      flagOf side (List.compareLex cmp xs.reverse ys.reverse) := by
  induction xs using List.reverseRecOn generalizing ys with
  | nil =>
    cases ys using List.reverseRecOn with
    | nil => simp [sideAfter,List.compareLex,flagOf]
    | append_singleton ys y _ =>
      cases ys <;> simp [sideAfter,List.compareLex,flagOf]
  | append_singleton xs x ih =>
    cases ys using List.reverseRecOn with
    | nil =>
      cases xs <;> simp [sideAfter,List.compareLex,flagOf]
    | append_singleton ys y _ =>
      rw [List.reverse_concat,List.reverse_concat,List.compareLex]
      cases hc : cmp x y with
      | lt =>
        have habove := sideAfter_above (ltOf cmp) (!side) ys
          (fun z hz => ltOf_of_lt (Std.TransCmp.lt_of_isLE_of_lt (isLE_last hx z hz) hc))
        rw [sideAfter_swap] at habove
        simpa [flagOf] using habove
      | gt =>
        have hyx : cmp y x = .lt := Std.OrientedCmp.gt_iff_lt.mp hc
        simpa [flagOf] using sideAfter_above (ltOf cmp) side xs
          (fun z hz => ltOf_of_lt (Std.TransCmp.lt_of_isLE_of_lt (isLE_last hy z hz) hyx))
      | eq =>
        have hyx : cmp y x = .eq := Std.OrientedCmp.eq_symm hc
        rw [sideAfter_level _ side (by simp [ltOf,hc]) (by simp [ltOf,hyx])]
        exact ih (List.pairwise_append.mp hx).1 (List.pairwise_append.mp hy).1

namespace Bracket

theorem Sorted.front_le {t : Bracket α} (h : t.Sorted cmp) {x : Nat × α}
    (hf : t.front (ltOf cmp) = some x) : ∀ y ∈ t.contents, cmp x.2 y.2 ≠ .gt := by
  induction t generalizing x with
  | leaf i l =>
    have hl := h (i,l) (by simp [leaves])
    cases l with
    | nil => simp [front] at hf
    | cons z l =>
      have hx : x = (i,z) := by simpa [front,eq_comm] using hf
      subst hx
      intro y hy
      rw [contents_leaf,List.mem_map] at hy
      obtain ⟨w,hw,rfl⟩ := hy
      rcases List.mem_cons.mp hw with rfl | hw
      · exact Ordering.isLE_iff_ne_gt.mp Std.ReflCmp.isLE_rfl
      · exact (List.pairwise_cons.mp hl).1 w hw
  | node side a b iha ihb =>
    obtain ⟨ha,hb⟩ := sorted_node.mp h
    -- The winner of one half is not above the front of the other, and so not above its elements.
    have hother : ∀ {c : Bracket α}, (∀ {z : Nat × α}, c.front (ltOf cmp) = some z →
        ∀ y ∈ c.contents, cmp z.2 y.2 ≠ .gt) →
        (∀ z, c.front (ltOf cmp) = some z → cmp x.2 z.2 ≠ .gt) →
        ∀ y ∈ c.contents, cmp x.2 y.2 ≠ .gt := by
      intro c ihc hxc y hy
      cases hfc : c.front (ltOf cmp) with
      | none =>
        rw [(front_none _).mp hfc] at hy
        simp at hy
      | some z => exact cmp_trans (hxc z hfc) (ihc hfc y hy)
    intro y hy
    rw [contents_node,List.mem_append] at hy
    rw [front] at hf
    cases ht : takesLeft (ltOf cmp) side (a.front (ltOf cmp)) (b.front (ltOf cmp)) with
    | true =>
      rw [ht,if_pos rfl] at hf
      refine hy.elim (iha ha hf y) (hother (ihb hb) (fun z hz => ?_) y)
      rw [hf,hz] at ht
      exact le_of_goesLeft ht
    | false =>
      rw [ht,if_neg Bool.false_ne_true] at hf
      refine hy.elim (hother (iha ha) (fun z hz => ?_) y) (ihb hb hf y)
      rw [hf,hz] at ht
      exact le_of_goesRight ht

theorem Sorted.emits_sorted {t : Bracket α} (h : t.Sorted cmp) :
    ((t.emits (ltOf cmp)).map Prod.snd).Pairwise (fun a b => cmp a b ≠ .gt) := by
  induction t using emits_induction (ltOf cmp) with
  | none t hf => simp [emits_none hf]
  | some t x hf ih =>
    rw [emits_some hf,List.map_cons]
    refine List.pairwise_cons.mpr ⟨?_,ih (h.pop _)⟩
    intro y hy
    obtain ⟨z,hz,rfl⟩ := List.mem_map.mp hy
    exact h.front_le hf z (contents_pop_subset t ((emits_perm _ _).subset hz))

theorem Sorted.emitsOf_sorted {t : Bracket α} (h : t.Sorted cmp) (p : α → Bool) :
    (emitsOf cmp p t).Pairwise (fun a b => cmp a b ≠ .gt) :=
  h.emits_sorted.sublist List.filter_sublist

theorem Sorted.upper {p : α → Bool} (hp : Lower cmp p) {t : Bracket α} (h : t.Sorted cmp)
    {x : Nat × α} (hf : t.front (ltOf cmp) = some x) (hx : p x.2 = false) :
    ∀ y ∈ t.contents, p y.2 = false := by
  intro y hy
  cases hy' : p y.2 with
  | false => rfl
  | true =>
    have hgt := Std.OrientedCmp.gt_of_lt (hp y.2 x.2 hy' hx)
    exact absurd hgt (h.front_le hf y hy)

theorem Sorted.front_emitsOf {p : α → Bool} (hp : Lower cmp p) {t : Bracket α}
    (h : t.Sorted cmp) {y : α} (hy : y ∈ (emitsOf cmp p t).head?) :
    ∃ i, t.front (ltOf cmp) = some (i,y) := by
  cases hf : t.front (ltOf cmp) with
  | none =>
    rw [emitsOf,emits_none hf] at hy
    simp at hy
  | some x =>
    cases hx : p x.2 with
    | false =>
      rw [(spent_upper (h.upper hp hf hx)).2] at hy
      simp at hy
    | true =>
      rw [(spent_front hf hx).2] at hy
      exact ⟨x.1,by rw [← Option.some.inj hy]⟩

theorem spent_node {p : α → Bool} (hp : Lower cmp p) (side : Bool) {a b : Bracket α}
    (ha : a.Sorted cmp) (hb : b.Sorted cmp) :
    spent cmp p (.node side a b) =
      .node (sideAfter (ltOf cmp) side (emitsOf cmp p a) (emitsOf cmp p b))
        (spent cmp p a) (spent cmp p b) := by
  generalize ht : Bracket.node side a b = t
  induction t using emits_induction (ltOf cmp) generalizing side a b with
  | none t hf =>
    subst ht
    refine spent_node_upper side ?_
    simp [(front_none _).mp hf]
  | some t x hf ih =>
    subst ht
    cases hx : p x.2 with
    | false => exact spent_node_upper side ((sorted_node.mpr ⟨ha,hb⟩).upper hp hf hx)
    | true =>
      rw [(spent_front hf hx).1]
      rw [front] at hf
      cases ht : takesLeft (ltOf cmp) side (a.front (ltOf cmp)) (b.front (ltOf cmp)) with
      | true =>
        have hpop : Bracket.node true (a.pop (ltOf cmp)) b =
            (Bracket.node side a b).pop (ltOf cmp) := by rw [Bracket.pop,if_pos ht]
        rw [if_pos ht] at hf
        obtain ⟨hspent,hout⟩ := spent_front hf hx
        rw [ih true (ha.pop _) hb hpop,hspent,hout,sideAfter_left]
        intro y hy
        obtain ⟨i,hfb⟩ := hb.front_emitsOf hp hy
        rwa [hf,hfb] at ht
      | false =>
        have hpop : Bracket.node false a (b.pop (ltOf cmp)) =
            (Bracket.node side a b).pop (ltOf cmp) := by
          rw [Bracket.pop,if_neg (by simp [ht])]
        rw [if_neg (by simp [ht])] at hf
        obtain ⟨hspent,hout⟩ := spent_front hf hx
        rw [ih false ha (hb.pop _) hpop,hspent,hout,sideAfter_right]
        intro y hy
        obtain ⟨i,hfa⟩ := ha.front_emitsOf hp hy
        rwa [hf,hfa] at ht

/-- Where the flag of a node stands is decided by the lists of its halves alone. -/
theorem tieBreak_spent {p : α → Bool} (hp : Lower cmp p) (best : α → Bool) (side : Bool)
    {a b : Bracket α} (ha : a.Sorted cmp) (hb : b.Sorted cmp) :
    tieBreak best (spent cmp p (.node side a b)) =
      pick (flagOf side (List.compareLex cmp (emitsOf cmp p a).reverse (emitsOf cmp p b).reverse))
        (tieBreak best (spent cmp p a)) (tieBreak best (spent cmp p b)) := by
  rw [spent_node hp side ha hb,tieBreak,
    sideAfter_reverse side (ha.emitsOf_sorted p) (hb.emitsOf_sorted p)]

theorem popN_leaf (lt : α → α → Bool) (i : Nat) (l : List α) (n : Nat) :
    (Bracket.leaf i l).popN lt n = .leaf i (l.drop n) := by
  induction n generalizing l with
  | zero => rfl
  | succ n ih => rw [popN,Bracket.pop,ih,List.drop_tail]

end Bracket

theorem head_drop_countP {p best : α → Bool} (hp : Lower cmp p) {l : List α}
    (hs : l.Pairwise (fun a b => cmp a b ≠ .gt)) (hb : ∀ x, best x = true → p x = false)
    (hlow : ∀ x ∈ l, ∀ y ∈ l, best x = true → best y = false → p y = false → cmp x y = .lt) :
    (l.drop (l.countP p)).head?.filter best = l.find? best := by
  induction l with
  | nil => rfl
  | cons x l ih =>
    obtain ⟨hfst,hrest⟩ := List.pairwise_cons.mp hs
    have ih := ih hrest (fun y hy z hz => hlow y (by simp [hy]) z (by simp [hz]))
    cases hx : p x with
    | true =>
      have hbx : best x = false := by
        cases hbx : best x with
        | false => rfl
        | true => rw [hb x hbx] at hx; contradiction
      rw [List.countP_cons,if_pos hx,List.drop_succ_cons,ih,List.find?_cons,hbx]
    | false =>
      have hfree : ∀ y ∈ x :: l, ¬ p y = true := by
        intro y hy hpy
        rcases List.mem_cons.mp hy with rfl | hy
        · rw [hx] at hpy
          contradiction
        · exact hfst y hy (Std.OrientedCmp.gt_of_lt (hp y x hpy hx))
      rw [List.countP_eq_zero.mpr hfree,List.drop_zero,List.head?_cons,List.find?_cons]
      cases hbx : best x with
      | true => simp [Option.filter,hbx]
      | false =>
        -- A later `best` element would have to be before `x`.
        have hnone : l.find? best = none := by
          rw [List.find?_eq_none]
          intro y hy hby
          have hlt := hlow y (by simp [hy]) x (by simp) hby hbx hx
          exact hfst y hy (Std.OrientedCmp.gt_of_lt hlt)
        simp [Option.filter,hbx,hnone]

end

end

end Kway
