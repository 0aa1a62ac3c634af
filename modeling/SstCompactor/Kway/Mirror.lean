import SstCompactor.Kway.Bracket
import SstCompactor.Kway.Tournament
import Mathlib.Data.Nat.Log

/-!
A loser tree in an array as a bracket. `Mirrors` says when the array is in the state of a
bracket: replaying the path of the last winner is then a `pop`, and the matches of the replay
are those that the bracket needs.
-/

set_option autoImplicit false

namespace Kway
open Kway.Bracket Tournament

section
variable {α : Type} (lt : α → α → Bool)

def headOf (ls : List (List α)) (i : Nat) : Option α := (ls[i]?).bind List.head?

/-- Two lists compared by their heads; a list without one loses. -/
def headLt (ls : List (List α)) (a b : Nat) : Bool :=
  match headOf ls a, headOf ls b with
  | some x, some y => lt x y
  | some _, none => true
  | none, _ => false

/-- Leaf `w` wins the subtree of height `h` under node `n`, whose matches stand as in the
bracket. Of two halves with nothing left either may stand as the winner. -/
def Mirrors (k : Nat) (tree : List Nat) (ls : List (List α)) :
    Nat → Nat → Nat → Bracket α → Prop
  | 0, n, w, .leaf i l => n = k+i ∧ w = i ∧ l = (ls[i]?).getD []
  | h+1, n, w, .node side a b => ∃ x y, Mirrors k tree ls h (2*n) x a ∧
      Mirrors k tree ls h (2*n+1) y b ∧
      ((w = x ∧ tree[n]? = some y ∧
        (takesLeft lt side (a.front lt) (b.front lt) = true ∨ b.front lt = none)) ∨
       (w = y ∧ tree[n]? = some x ∧ takesLeft lt side (a.front lt) (b.front lt) = false))
  | _, _, _, _ => False

variable {lt}

theorem mirrors_leaf {k h n w : Nat} {tree : List Nat} {ls : List (List α)} {t : Bracket α}
    (hm : Mirrors lt k tree ls h n w t) : (k+w)/2^h = n := by
  induction h generalizing n w t with
  | zero =>
    cases t with
    | leaf i l =>
      obtain ⟨rfl,rfl,-⟩ := hm
      simp
    | node side a b => exact hm.elim
  | succ h ih =>
    cases t with
    | leaf i l => exact hm.elim
    | node side a b =>
      obtain ⟨x,y,ha,hb,⟨rfl,-,-⟩ | ⟨rfl,-,-⟩⟩ := hm
      · exact div_child (.inl (ih ha))
      · exact div_child (.inr (ih hb))

/-- The winner's list is the one whose head leaves next. -/
theorem mirrors_front {k h n w : Nat} {tree : List Nat} {ls : List (List α)} {t : Bracket α}
    (hm : Mirrors lt k tree ls h n w t) :
    t.front lt = (headOf ls w).map (fun x => (w,x)) := by
  induction h generalizing n w t with
  | zero =>
    cases t with
    | leaf i l =>
      obtain ⟨-,rfl,rfl⟩ := hm
      rw [front,headOf]
      cases ls[w]? <;> rfl
    | node side a b => exact hm.elim
  | succ h ih =>
    cases t with
    | leaf i l => exact hm.elim
    | node side a b =>
      obtain ⟨x,y,ha,hb,⟨rfl,-,ht⟩ | ⟨rfl,-,ht⟩⟩ := hm
      · rw [front,← ih ha]
        rcases ht with ht | ht
        · rw [if_pos ht]
        · rw [ht]
          cases a.front lt <;> rfl
      · rw [front,if_neg (by simp [ht]),ih hb]

theorem Mirrors.frame {k h n w : Nat} {tree tree' : List Nat} {ls ls' : List (List α)}
    {t : Bracket α} (hm : Mirrors lt k tree ls h n w t)
    (ht : ∀ m, Below n m → tree'[m]? = tree[m]?)
    (hl : ∀ i, Below n (k+i) → ls'[i]? = ls[i]?) : Mirrors lt k tree' ls' h n w t := by
  induction h generalizing n w t with
  | zero =>
    cases t with
    | leaf i l =>
      obtain ⟨rfl,rfl,rfl⟩ := hm
      exact ⟨rfl,rfl,by rw [hl w (Below.refl _)]⟩
    | node side a b => exact hm.elim
  | succ h ih =>
    cases t with
    | leaf i l => exact hm.elim
    | node side a b =>
      obtain ⟨x,y,ha,hb,hc⟩ := hm
      refine ⟨x,y,ih ha ?_ ?_,ih hb ?_ ?_,?_⟩
      · exact fun m hm => ht m (hm.of_child (.inl rfl))
      · exact fun i hi => hl i (hi.of_child (.inl rfl))
      · exact fun m hm => ht m (hm.of_child (.inr rfl))
      · exact fun i hi => hl i (hi.of_child (.inr rfl))
      · rw [ht n (Below.refl n)]
        exact hc

theorem takesLeft_left {k h g n m x y : Nat} {tree : List Nat} {ls : List (List α)}
    {a b : Bracket α} (ha : Mirrors lt k tree ls h n x a) (hb : Mirrors lt k tree ls g m y b) :
    takesLeft lt true (a.front lt) (b.front lt) = headLt lt ls x y := by
  rw [mirrors_front ha,mirrors_front hb,headLt]
  cases headOf ls x with
  | none => rfl
  | some u => cases headOf ls y <;> simp [takesLeft]

theorem takesLeft_right {k h g n m x y : Nat} {tree : List Nat} {ls : List (List α)}
    {a b : Bracket α} (ha : Mirrors lt k tree ls h n x a) (hb : Mirrors lt k tree ls g m y b) :
    if headLt lt ls y x then takesLeft lt false (a.front lt) (b.front lt) = false
    else takesLeft lt false (a.front lt) (b.front lt) = true ∨ b.front lt = none := by
  rw [mirrors_front ha,mirrors_front hb,headLt]
  cases headOf ls y with
  | none => simp
  | some v =>
    cases headOf ls x with
    | none => simp [takesLeft]
    | some u => cases h : lt v u <;> simp [takesLeft,h]

theorem mirrors_first {k h n x y : Nat} {tree : List Nat} {ls : List (List α)} {a b : Bracket α}
    (hn : 1 ≤ n) (hlen : n < tree.length) (ha : Mirrors lt k tree ls h (2*n) x a)
    (hb : Mirrors lt k tree ls h (2*n+1) y b) :
    Mirrors lt k (tree.set n (if headLt lt ls x y then y else x)) ls (h+1) n
      (if headLt lt ls x y then x else y) (.node true a b) := by
  have hside := takesLeft_left ha hb
  refine ⟨x,y,ha.frame ?_ (fun _ _ => rfl),hb.frame ?_ (fun _ _ => rfl),?_⟩
  · exact fun m hm => getElem?_set_child tree _ hn (.inl rfl) hm
  · exact fun m hm => getElem?_set_child tree _ hn (.inr rfl) hm
  · cases hxy : headLt lt ls x y with
    | true => exact .inl ⟨rfl,by simp [hlen],.inl (hside.trans hxy)⟩
    | false => exact .inr ⟨rfl,by simp [hlen],hside.trans hxy⟩

theorem headLt_of_front {k h n x : Nat} {tree : List Nat} {ls : List (List α)} {a : Bracket α}
    (ha : Mirrors lt k tree ls h n x a) (hf : a.front lt = none) (y : Nat) :
    headLt lt ls x y = false := by
  rw [mirrors_front ha,Option.map_eq_none_iff] at hf
  rw [headLt,hf]

theorem Mirrors.plays {k h n w : Nat} {tree : List Nat} {ls : List (List α)} {t : Bracket α}
    (hw : IsWeak (headLt lt ls)) (hm : Mirrors lt k tree ls h n w t) :
    Plays k tree (headLt lt ls) h n w := by
  induction h generalizing n w t with
  | zero =>
    cases t with
    | leaf i l =>
      obtain ⟨rfl,rfl,-⟩ := hm
      rfl
    | node side a b => exact hm.elim
  | succ h ih =>
    cases t with
    | leaf i l => exact hm.elim
    | node side a b =>
      obtain ⟨x,y,ha,hb,hc⟩ := hm
      refine ⟨x,y,ih ha,ih hb,?_⟩
      have hleft := takesLeft_left ha hb
      have hright := takesLeft_right ha hb
      rcases hc with ⟨rfl,hy,ht | hnone⟩ | ⟨rfl,hx,ht⟩
      · refine .inl ⟨rfl,hy,?_⟩
        cases side with
        | true => exact hw.asymm w y (hleft.symm.trans ht)
        | false =>
          cases hyx : headLt lt ls y w with
          | false => rfl
          | true => simp [hyx,ht] at hright
      · exact .inl ⟨rfl,hy,headLt_of_front hb hnone w⟩
      · refine .inr ⟨rfl,hx,?_⟩
        cases side with
        | true => exact hleft.symm.trans ht
        | false =>
          cases hyx : headLt lt ls w x with
          | true => exact hw.asymm w x hyx
          | false =>
            have hb' : b.front lt = none := by simpa [hyx,ht] using hright
            refine headLt_of_front ha ?_ w
            rw [hb'] at ht
            cases hf : a.front lt with
            | none => rfl
            | some u => simp [hf,takesLeft] at ht

theorem meet_left {k h n x y : Nat} {tree : List Nat} {ls : List (List α)} {a b : Bracket α}
    (hn : 1 ≤ n) (ha : Mirrors lt k tree ls h (2*n) x a)
    (hb : Mirrors lt k tree ls h (2*n+1) y b) (ht : tree[n]? = some y) :
    Mirrors lt k (meet (headLt lt ls) (tree,x) n).1 ls (h+1) n
      (meet (headLt lt ls) (tree,x) n).2 (.node true a b) := by
  have hside := takesLeft_left ha hb
  have hlen : n < tree.length := (List.getElem?_eq_some_iff.mp ht).1
  simp only [meet,ht]
  cases hxy : headLt lt ls x y with
  | true => exact ⟨x,y,ha,hb,.inl ⟨rfl,ht,.inl (hside.trans hxy)⟩⟩
  | false =>
    refine ⟨x,y,ha.frame ?_ (fun _ _ => rfl),hb.frame ?_ (fun _ _ => rfl),
      .inr ⟨rfl,by simp [hlen],hside.trans hxy⟩⟩
    · exact fun m hm => getElem?_set_child tree x hn (.inl rfl) hm
    · exact fun m hm => getElem?_set_child tree x hn (.inr rfl) hm

theorem meet_right {k h n x y : Nat} {tree : List Nat} {ls : List (List α)} {a b : Bracket α}
    (hn : 1 ≤ n) (ha : Mirrors lt k tree ls h (2*n) x a)
    (hb : Mirrors lt k tree ls h (2*n+1) y b) (ht : tree[n]? = some x) :
    Mirrors lt k (meet (headLt lt ls) (tree,y) n).1 ls (h+1) n
      (meet (headLt lt ls) (tree,y) n).2 (.node false a b) := by
  have hside := takesLeft_right ha hb
  have hlen : n < tree.length := (List.getElem?_eq_some_iff.mp ht).1
  simp only [meet,ht]
  cases hyx : headLt lt ls y x with
  | true => exact ⟨x,y,ha,hb,.inr ⟨rfl,ht,by simpa [hyx] using hside⟩⟩
  | false =>
    refine ⟨x,y,ha.frame ?_ (fun _ _ => rfl),hb.frame ?_ (fun _ _ => rfl),
      .inl ⟨rfl,by simp [hlen],by simpa [hyx] using hside⟩⟩
    · exact fun m hm => getElem?_set_child tree y hn (.inl rfl) hm
    · exact fun m hm => getElem?_set_child tree y hn (.inr rfl) hm

theorem mirrors_node {k h n w : Nat} {tree : List Nat} {ls : List (List α)} {side : Bool}
    {a b : Bracket α} {z : α} (hm : Mirrors lt k tree ls (h+1) n w (.node side a b))
    (hw : headOf ls w = some z) :
    (∃ y, Mirrors lt k tree ls h (2*n) w a ∧ Mirrors lt k tree ls h (2*n+1) y b ∧
      tree[n]? = some y ∧ (Bracket.node side a b).pop lt = .node true (a.pop lt) b) ∨
    (∃ x, Mirrors lt k tree ls h (2*n) x a ∧ Mirrors lt k tree ls h (2*n+1) w b ∧
      tree[n]? = some x ∧ (Bracket.node side a b).pop lt = .node false a (b.pop lt)) := by
  obtain ⟨x,y,ha,hb,⟨rfl,hy,ht⟩ | ⟨rfl,hx,ht⟩⟩ := hm
  · have hleft : takesLeft lt side (a.front lt) (b.front lt) = true := by
      rcases ht with ht | ht
      · exact ht
      · rw [ht,mirrors_front ha,hw]
        rfl
    exact .inl ⟨y,ha,hb,hy,by rw [pop,if_pos hleft]⟩
  · exact .inr ⟨x,ha,hb,hx,by rw [pop,if_neg (by simp [ht])]⟩

/-- A subtree that does not hold the winner's leaf is not touched when that is replayed. -/
theorem mirrors_sibling {k h d w y : Nat} {tree : List Nat} {ls : List (List α)}
    {t : Bracket α} (hm : Mirrors lt k tree ls h d y t) (hd : ¬ Below d (k+w))
    (lt' : Nat → Nat → Bool) (rest : List α) (j : Nat) :
    Mirrors lt k (climb lt' tree (k+w) w j).1 (ls.set w rest) h d y t := by
  refine hm.frame (fun m hm => climb_outside lt' tree (k+w) w j hd hm) ?_
  intro i hi
  apply List.getElem?_set_ne
  rintro rfl
  exact hd hi

/-- When the winner's list has lost its head, replaying the winner's path is a `pop`. The
induction is on the height, as in `climb_plays`. -/
theorem climb_mirrors {k h n w : Nat} {tree : List Nat} {ls : List (List α)} {t : Bracket α}
    (hn : 1 ≤ n) (hm : Mirrors lt k tree ls h n w t) {z : α} {rest : List α}
    (hw : ls[w]? = some (z :: rest)) :
    Mirrors lt k (climb (headLt lt (ls.set w rest)) tree (k+w) w h).1 (ls.set w rest) h n
      (climb (headLt lt (ls.set w rest)) tree (k+w) w h).2 (t.pop lt) := by
  induction h generalizing n t with
  | zero =>
    cases t with
    | leaf i l =>
      obtain ⟨hi,hlt⟩ := List.getElem?_eq_some_iff.mp hw
      obtain ⟨rfl,rfl,rfl⟩ := hm
      exact ⟨rfl,rfl,by simp [hi,hlt]⟩
    | node side a b => exact hm.elim
  | succ h ih =>
    cases t with
    | leaf i l => exact hm.elim
    | node side a b =>
      have hleaf := mirrors_leaf hm
      have hhead : headOf ls w = some z := by simp [headOf,hw]
      rw [climb,hleaf]
      have hstore := climb_above (headLt lt (ls.set w rest)) tree (w:=w) hn hleaf
      rcases mirrors_node hm hhead with ⟨y,ha,hb,hy,hp⟩ | ⟨x,ha,hb,hx,hp⟩
      · rw [hp]
        have hnot := below_disjoint hn ⟨h,mirrors_leaf ha⟩
        exact meet_left hn (ih (by omega) ha) (mirrors_sibling hb hnot _ rest h)
          (hstore.trans hy)
      · rw [hp]
        have hnot : ¬ Below (2*n) (k+w) :=
          fun hb' => below_disjoint hn hb' ⟨h,mirrors_leaf hb⟩
        exact meet_right hn (mirrors_sibling ha hnot _ rest h) (ih (by omega) hb)
          (hstore.trans hx)

def fullUnder (k : Nat) (ls : List (List α)) : Nat → Nat → Bracket α
  | 0, n => .leaf (n-k) ((ls[n-k]?).getD [])
  | h+1, n => .node true (fullUnder k ls h (2*n)) (fullUnder k ls h (2*n+1))

def Fair (D : α → Prop) (ls : List (List α)) (s : List Nat × Nat) (node : Nat) : Prop :=
  ∀ l x y, s.1[node]? = some l → headOf ls s.2 = some x → headOf ls l = some y → D x ∧ D y

theorem fair_iff {D : α → Prop} {k h g n m x y node : Nat} {tree : List Nat}
    {ls : List (List α)} {a b : Bracket α} (ha : Mirrors lt k tree ls h n x a)
    (hb : Mirrors lt k tree ls g m y b) (ht : tree[node]? = some y) :
    Fair D ls (tree,x) node ↔
      ∀ u v, a.front lt = some u → b.front lt = some v → D u.2 ∧ D v.2 := by
  rw [mirrors_front ha,mirrors_front hb]
  constructor
  · intro hf u v hu hv
    obtain ⟨p,hp,rfl⟩ := Option.map_eq_some_iff.mp hu
    obtain ⟨q,hq,rfl⟩ := Option.map_eq_some_iff.mp hv
    exact hf y p q ht hp hq
  · intro hf l p q hl hp hq
    obtain rfl : y = l := Option.some.inj (ht.symm.trans hl)
    exact hf (x,p) (y,q) (by simp [hp]) (by simp [hq])

theorem climb_fair {D : α → Prop} {k h n w : Nat} {tree : List Nat} {ls : List (List α)}
    {t : Bracket α} (hn : 1 ≤ n) (hm : Mirrors lt k tree ls h n w t) {z : α} {rest : List α}
    (hw : ls[w]? = some (z :: rest)) (hs : t.Safe lt D) :
    (t.pop lt).Safe lt D ↔ ∀ j < h, Fair D (ls.set w rest)
      (climb (headLt lt (ls.set w rest)) tree (k+w) w j) ((k+w)/2^(j+1)) := by
  induction h generalizing n t with
  | zero =>
    cases t with
    | leaf i l => simp [pop,Safe]
    | node side a b => exact hm.elim
  | succ h ih =>
    cases t with
    | leaf i l => exact hm.elim
    | node side a b =>
      obtain ⟨hsa,hsb,-⟩ := hs
      have hleaf := mirrors_leaf hm
      have hhead : headOf ls w = some z := by simp [headOf,hw]
      have hstore := climb_above (headLt lt (ls.set w rest)) tree (w:=w) hn hleaf
      rw [Nat.forall_lt_succ_right,hleaf]
      rcases mirrors_node hm hhead with ⟨y,ha,hb,hy,hp⟩ | ⟨x,ha,hb,hx,hp⟩
      · have hnot := below_disjoint hn ⟨h,mirrors_leaf ha⟩
        have hmatch := fair_iff (D:=D) (climb_mirrors (by omega) ha hw)
          (mirrors_sibling hb hnot _ rest h) (hstore.trans hy)
        rw [hp,Safe,← ih (by omega) ha hsa,hmatch]
        simp only [hsb,true_and]
      · have hnot : ¬ Below (2*n) (k+w) :=
          fun hb' => below_disjoint hn hb' ⟨h,mirrors_leaf hb⟩
        have hmatch := fair_iff (D:=D) (climb_mirrors (by omega) hb hw)
          (mirrors_sibling ha hnot _ rest h) (hstore.trans hx)
        rw [hp,Safe,← ih (by omega) hb hsb,hmatch]
        simp only [hsa,true_and]
        refine and_congr_right (fun _ => ?_)
        exact ⟨fun hf u v hu hv => (hf v u hv hu).symm,fun hf u v hu hv => (hf v u hv hu).symm⟩

def bracketOf (ls : List (List α)) : Bracket α :=
  fullUnder (2^Nat.clog 2 (max ls.length 1)) ls (Nat.clog 2 (max ls.length 1)) 1

theorem leaves_fullUnder (k : Nat) (ls : List (List α)) (h n : Nat) (hk : k ≤ n*2^h) :
    (fullUnder k ls h n).leaves =
      (List.range' (n*2^h-k) (2^h)).map (fun i => (i,(ls[i]?).getD [])) := by
  induction h generalizing n with
  | zero => simp [fullUnder,leaves]
  | succ h ih =>
    rw [mul_pow_succ] at hk ⊢
    obtain ⟨hr,hstart⟩ := right_start hk
    rw [fullUnder,leaves,ih (2*n) hk,ih (2*n+1) hr,← List.map_append,hstart,
      List.range'_append_1,Nat.pow_succ,Nat.mul_two]

theorem map_getD_range (ls : List (List α)) {n : Nat} (hn : ls.length ≤ n) :
    (List.range n).map (fun i => (ls[i]?).getD []) = ls ++ List.replicate (n-ls.length) [] := by
  apply List.ext_getElem
  · simp; omega
  · intro i h₁ h₂
    simp only [List.getElem_map,List.getElem_range,List.getElem_append]
    split
    · rename_i hi
      simp [hi]
    · rename_i hi
      rw [List.getElem?_eq_none (by omega),List.getElem_replicate]
      rfl

theorem spans_root (h : Nat) : Spans (2^h) h 1 := ⟨by decide,by omega,by omega⟩

theorem length_le_padded (n : Nat) : n ≤ 2^Nat.clog 2 (max n 1) :=
  (Nat.le_max_left n 1).trans (Nat.le_pow_clog (by decide) _)

theorem contents_fullUnder (k : Nat) (ls : List (List α)) (h n : Nat) (hk : k ≤ n*2^h) :
    (fullUnder k ls h n).contents.map Prod.snd = ((ls.drop (n*2^h-k)).take (2^h)).flatten := by
  induction h generalizing n with
  | zero =>
    rw [fullUnder,contents_leaf,Nat.pow_zero,Nat.mul_one,List.take_one,List.head?_drop]
    cases ls[n-k]? <;> simp [Function.comp_def]
  | succ h ih =>
    rw [mul_pow_succ] at hk ⊢
    obtain ⟨hr,hstart⟩ := right_start hk
    rw [fullUnder,contents_node,List.map_append,ih (2*n) hk,ih (2*n+1) hr,hstart,Nat.pow_succ,
      Nat.mul_two,List.take_add,List.flatten_append,List.drop_drop]

theorem leaves_bracketOf (ls : List (List α)) : (bracketOf ls).leaves =
    (List.range (2^Nat.clog 2 (max ls.length 1))).map (fun i => (i,(ls[i]?).getD [])) := by
  rw [bracketOf,leaves_fullUnder _ _ _ _ (by omega),Nat.one_mul,Nat.sub_self,
    ← List.range_eq_range']

theorem nodup_leaves_bracketOf (ls : List (List α)) :
    ((bracketOf ls).leaves.map Prod.fst).Nodup := by
  rw [leaves_bracketOf,List.map_map]
  simpa [Function.comp_def] using List.nodup_range

theorem mem_bracketOf {ls : List (List α)} {x : Nat × α} :
    x ∈ (bracketOf ls).contents ↔ ∃ l, ls[x.1]? = some l ∧ x.2 ∈ l := by
  rw [mem_contents,leaves_bracketOf]
  constructor
  · rintro ⟨l,hl,hx⟩
    obtain ⟨i,-,heq⟩ := List.mem_map.mp hl
    rw [Prod.mk.injEq] at heq
    obtain ⟨rfl,rfl⟩ := heq
    cases hi : ls[x.1]? with
    | none => simp [hi] at hx
    | some l => exact ⟨l,rfl,by simpa [hi] using hx⟩
  · rintro ⟨l,hl,hx⟩
    have hi : x.1 < ls.length := (List.getElem?_eq_some_iff.mp hl).1
    refine ⟨l,List.mem_map.mpr ⟨x.1,?_,by rw [hl]; rfl⟩,hx⟩
    exact List.mem_range.mpr (Nat.lt_of_lt_of_le hi (length_le_padded _))

theorem contents_bracketOf (ls : List (List α)) :
    (bracketOf ls).contents.map Prod.snd = ls.flatten := by
  rw [bracketOf,contents_fullUnder _ _ _ _ (by omega),Nat.one_mul,Nat.sub_self,List.drop_zero,
    List.take_of_length_le (length_le_padded _)]

theorem filterMap_leaves_bracketOf {β : Type} {f : List α → Option β} (hf : f [] = none)
    (ls : List (List α)) :
    (bracketOf ls).leaves.filterMap (fun p => f p.2) = ls.filterMap f := by
  have hmap : ((List.range (2^Nat.clog 2 (max ls.length 1))).map
      (fun i => (ls[i]?).getD [])).filterMap f = ls.filterMap f := by
    rw [map_getD_range ls (length_le_padded _),List.filterMap_append]
    simp [hf]
  rw [← hmap,leaves_bracketOf,List.filterMap_map,List.filterMap_map]
  rfl

theorem fronts_bracketOf (ls : List (List α)) :
    (bracketOf ls).fronts = ls.filterMap List.head? :=
  filterMap_leaves_bracketOf rfl ls

/-- Before anything has left a tie goes to the last list that has a `best` head. -/
theorem tieBreak_bracketOf (best : α → Bool) (ls : List (List α)) :
    ((bracketOf ls).tieBreak best).map Prod.snd =
      (ls.filterMap (fun l => l.head?.filter best)).getLast? := by
  have hfull : ∀ k h n, (fullUnder k ls h n).tieBreak best =
      ((fullUnder k ls h n).leaves.filterMap
        (fun p => (p.2.head?.filter best).map (fun x => (p.1,x)))).getLast? := by
    intro k h
    induction h with
    | zero =>
      intro n
      rw [fullUnder,tieBreak,leaves]
      cases hx : (((ls[n-k]?).getD []).head?.filter best) <;> simp [hx]
    | succ h ih =>
      intro n
      rw [fullUnder,tieBreak,leaves,List.filterMap_append,List.getLast?_append,← ih,← ih]
      cases (fullUnder k ls h (2*n)).tieBreak best <;>
        cases (fullUnder k ls h (2*n+1)).tieBreak best <;> rfl
  rw [bracketOf,hfull,← bracketOf,← List.getLast?_map,List.map_filterMap]
  simp only [Option.map_map,Function.comp_def,Option.map_id']
  rw [filterMap_leaves_bracketOf (f:=fun l => l.head?.filter best) rfl]

theorem bracketOf_map {g : List α → List α} (hg : g [] = []) (ls : List (List α)) :
    bracketOf (ls.map g) = (bracketOf ls).mapLists g := by
  have hfull : ∀ k h n, fullUnder k (ls.map g) h n = (fullUnder k ls h n).mapLists g := by
    intro k h
    induction h with
    | zero =>
      intro n
      rw [fullUnder,fullUnder,mapLists,List.getElem?_map]
      cases ls[n-k]? with
      | none => simp [hg]
      | some l => rfl
    | succ h ih =>
      intro n
      rw [fullUnder,fullUnder,mapLists,ih,ih]
  rw [bracketOf,bracketOf,List.length_map,hfull]

theorem safeRun_bracketOf {D : α → Prop} {ls : List (List α)} (hD : ∀ l ∈ ls, ∀ x ∈ l, D x) :
    (bracketOf ls).SafeRun lt D := by
  apply safeRun_of_contents
  intro x hx
  have hx' : x.2 ∈ ls.flatten := by
    rw [← contents_bracketOf]
    exact List.mem_map_of_mem hx
  obtain ⟨l,hl,hxl⟩ := List.mem_flatten.mp hx'
  exact hD l hl x.2 hxl

end

end Kway
