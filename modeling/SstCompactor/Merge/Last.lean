import SstCompactor.Merge.Order
import Mathlib.Data.List.Sort

set_option autoImplicit false

namespace SstCompactor
open Kway

def KeyGe (a b : Bytes) : Prop := compareKeys b a ≠ .gt

instance : DecidableRel KeyGe := fun a b => inferInstanceAs (Decidable (compareKeys b a ≠ .gt))

instance : Std.Total KeyGe where
  total a b := by
    rw [KeyGe,KeyGe,compareKeys_swap a b]
    cases compareKeys a b <;> simp

instance : IsTrans Bytes KeyGe where
  trans _ _ _ h₁ h₂ := compareKeys_trans h₂ h₁

def keysDown (es : List Entry) : List Bytes := (es.map Prod.fst).insertionSort KeyGe

theorem compareLex_map (xs ys : List Entry) : List.compareLex keyCmp xs ys =
    List.compareLex compareKeys (xs.map Prod.fst) (ys.map Prod.fst) := by
  induction xs generalizing ys with
  | nil => cases ys <;> rfl
  | cons x xs ih =>
    cases ys with
    | nil => rfl
    | cons y ys =>
      rw [List.map_cons,List.map_cons,List.compareLex,List.compareLex,ih]
      rfl

theorem keysDown_eq {es fs : List Entry} (hw : ∀ e ∈ es, WellFormed e.1) (hs : SortedEntries fs)
    (hp : fs.Perm es) : fs.reverse.map Prod.fst = keysDown es := by
  have hkeys : (fs.reverse.map Prod.fst).Perm (es.map Prod.fst) :=
    ((List.reverse_perm fs).trans hp).map Prod.fst
  have hwf : ∀ k ∈ es.map Prod.fst, WellFormed k := by
    intro k hk
    obtain ⟨e,he,rfl⟩ := List.mem_map.mp hk
    exact hw e he
  refine List.Perm.eq_of_pairwise ?_ ?_ (List.pairwise_insertionSort KeyGe _)
    (hkeys.trans (List.perm_insertionSort KeyGe _).symm)
  · intro a b ha hb hab hba
    have hb := (List.perm_insertionSort KeyGe _).subset hb
    refine (compareKeys_eq_iff (hwf a (hkeys.subset ha)) (hwf b hb)).mp ?_
    rw [KeyGe] at hab hba
    rw [compareKeys_swap a b] at hab
    cases hc : compareKeys a b <;> simp_all
  · rw [List.pairwise_map,List.pairwise_reverse]
    exact hs

/-- The number of the source that hands out the last entry, among `2^h` of them. Where both
halves have entries it is in the half with the greater keys, and in the left one if they have
the same. -/
def lastSource : Nat → List (List Entry) → Option Nat
  | 0, ls => (ls.head?.bind List.head?).map (fun _ => 0)
  | h+1, ls =>
    match lastSource h (ls.take (2^h)),lastSource h (ls.drop (2^h)) with
    | some i,some j =>
      if List.compareLex compareKeys (keysDown (ls.take (2^h)).flatten)
          (keysDown (ls.drop (2^h)).flatten) = .lt then some (2^h+j) else some i
    | some i,none => some i
    | none,j => j.map (2^h+·)

theorem take_halves {α : Type} (h : Nat) (ls : List α) :
    (ls.take (2^(h+1))).take (2^h) = ls.take (2^h) ∧
      (ls.take (2^(h+1))).drop (2^h) = (ls.drop (2^h)).take (2^h) := by
  rw [Nat.pow_succ,Nat.mul_two,List.take_take,Nat.min_eq_left (Nat.le_add_left _ _),
    List.drop_take,Nat.add_sub_cancel]
  exact ⟨rfl,rfl⟩

theorem lastSource_take (h : Nat) (ls : List (List Entry)) :
    lastSource (h+1) (ls.take (2^(h+1))) =
      Bracket.pick (!flagOf true (List.compareLex compareKeys
          (keysDown (ls.take (2^h)).flatten) (keysDown ((ls.drop (2^h)).take (2^h)).flatten)))
        (lastSource h (ls.take (2^h)))
        ((lastSource h ((ls.drop (2^h)).take (2^h))).map (2^h+·)) := by
  rw [lastSource,(take_halves h ls).1,(take_halves h ls).2]
  cases lastSource h (ls.take (2^h)) with
  | none => rfl
  | some i =>
    cases lastSource h ((ls.drop (2^h)).take (2^h)) with
    | none => rfl
    | some j =>
      cases List.compareLex compareKeys (keysDown (ls.take (2^h)).flatten)
        (keysDown ((ls.drop (2^h)).take (2^h)).flatten) <;> rfl

section
variable {ls : List (List Entry)} (hw : KeysIn WellFormed ls) (hs : ∀ l ∈ ls, SortedEntries l)
include hw hs

theorem keysDown_fullUnder (p : Entry → Bool) (k h n : Nat) (hk : k ≤ n*2^h) :
    ((fullUnder k ls h n).emitsOf keyCmp p).reverse.map Prod.fst =
      keysDown (((ls.drop (n*2^h-k)).take (2^h)).flatten.filter p) := by
  have hsorted : (fullUnder k ls h n).Sorted keyCmp := sorted_fullUnder hs k h n
  refine keysDown_eq ?_ (hsorted.emitsOf_sorted p) ?_
  · intro e he
    obtain ⟨l,hl,hel⟩ := List.mem_flatten.mp (List.mem_filter.mp he).1
    exact hw l (List.mem_of_mem_drop (List.mem_of_mem_take hl)) e hel
  · rw [← contents_fullUnder k ls h n hk]
    exact ((Bracket.emits_perm _ _).map Prod.snd).filter p

theorem last_fullUnder (k h n : Nat) (hk : k ≤ n*2^h) :
    ((fullUnder k ls h n).emits keyLt).getLast?.map Prod.fst =
      (lastSource h ((ls.drop (n*2^h-k)).take (2^h))).map (n*2^h-k+·) := by
  induction h generalizing n with
  | zero =>
    rw [Nat.pow_zero,Nat.mul_one,lastSource,List.take_one,List.head?_drop,fullUnder,
      Bracket.emits_single (by cases (ls[n-k]?).getD [] <;> simp),Bracket.contents_leaf,
      List.getLast?_map]
    cases ls[n-k]? with
    | none => rfl
    | some l => cases l <;> simp [List.getLast?_cons]
  | succ h ih =>
    rw [Tournament.mul_pow_succ] at hk ⊢
    obtain ⟨hr,hstart⟩ := Tournament.right_start hk
    have hsl : (fullUnder k ls h (2*n)).Sorted keyCmp := sorted_fullUnder hs k h (2*n)
    have hsr : (fullUnder k ls h (2*n+1)).Sorted keyCmp := sorted_fullUnder hs k h (2*n+1)
    have hkl := keysDown_fullUnder hw hs (fun _ => true) k h (2*n) hk
    have hkr := keysDown_fullUnder hw hs (fun _ => true) k h (2*n+1) hr
    have ihr := ih (2*n+1) hr
    simp only [Bracket.emitsOf,List.filter_true,hstart,← List.drop_drop,ltOf_keyCmp] at hkl hkr ihr
    rw [fullUnder,getLast_emits_node,Bracket.pick_map,ih (2*n) hk,ihr,
      ← ltOf_keyCmp,sideAfter_reverse true hsl.emits_sorted hsr.emits_sorted,compareLex_map,
      ltOf_keyCmp,hkl,hkr,lastSource_take,Bracket.pick_map]
    simp only [Option.map_map,Function.comp_def,Nat.add_assoc]

theorem last_bracketOf : ((bracketOf ls).emits keyLt).getLast?.map Prod.fst =
    lastSource (Nat.clog 2 (max ls.length 1)) ls := by
  rw [bracketOf,last_fullUnder hw hs _ _ _ (by omega),Nat.one_mul,Nat.sub_self,List.drop_zero,
    List.take_of_length_le (length_le_padded _)]
  simp

end

end SstCompactor
