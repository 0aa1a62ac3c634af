import SstCompactor.Format.InternalKey
import Mathlib.Order.Basic

set_option autoImplicit false

namespace SstCompactor
open FixedWidth

structure KeyComparator where
  compare : Bytes → Bytes → Exec Ordering
  hasSortPrefix : Bool := false
  sortPrefix : Bytes → Nat := fun _ => 0

def suffixLen : Nat := 8

/-- `cmp::split`. -/
def splitSuffix (key : Bytes) : Exec (Bytes × Bytes) := do
  let n ← checkedSub key.length suffixLen
  pure (key.take n,key.drop n)

def internalKeyCompare (a b : Bytes) : Exec Ordering := do
  let (aUser,aSuffix) ← splitSuffix a
  let (bUser,bSuffix) ← splitSuffix b
  match compare aUser bUser with
  | .eq => pure (compare (ofLe bSuffix) (ofLe aSuffix))
  | other => pure other

def internalKeyComparator : KeyComparator where
  compare := internalKeyCompare

/-- The first eight bytes as a big-endian number, zero padded. -/
def loadBePrefix (key : Bytes) : Nat :=
  ofLe (key.take 8 ++ List.replicate (8-min key.length 8) 0).reverse

def bytewiseComparator : KeyComparator where
  compare := fun a b => .ok (compare a b)
  sortPrefix := loadBePrefix

/-- `cmp::user_key`. -/
def cmpUserKey (internalKey : Bytes) : Exec Bytes := do
  let (u,_) ← splitSuffix internalKey
  pure u

def compareUserKeys (a b : Bytes) : Exec Ordering := do
  let ua ← cmpUserKey a
  let ub ← cmpUserKey b
  pure (compare ua ub)

def compareWithPrefix (C : KeyComparator) (a b : Bytes) : Exec Ordering :=
  if C.hasSortPrefix then
    match compare (C.sortPrefix a) (C.sortPrefix b) with
    | .eq => C.compare a b
    | byPrefix => .ok byPrefix
  else C.compare a b

/-- What the merge algorithms need of a comparator: on the keys in `D` it computes the
total preorder `cmp`, and a sort prefix never contradicts it. -/
structure OrdersAs (C : KeyComparator) (D : Bytes → Prop)
    (cmp : Bytes → Bytes → Ordering) : Prop where
  compare_eq : ∀ a b, D a → D b → C.compare a b = .ok (cmp a b)
  swap : ∀ a b, D a → D b → cmp b a = (cmp a b).swap
  trans : ∀ a b c, D a → D b → D c → cmp a b ≠ .gt → cmp b c ≠ .gt → cmp a c ≠ .gt
  sortPrefix_eq : C.hasSortPrefix = true → ∀ a b, D a → D b →
    C.sortPrefix a ≠ C.sortPrefix b → compare (C.sortPrefix a) (C.sortPrefix b) = cmp a b

theorem OrdersAs.compareWithPrefix_eq {C : KeyComparator} {D : Bytes → Prop}
    {cmp : Bytes → Bytes → Ordering} (h : OrdersAs C D cmp) {a b : Bytes} (ha : D a) (hb : D b) :
    compareWithPrefix C a b = .ok (cmp a b) := by
  unfold compareWithPrefix
  split
  · rename_i hp
    split
    · exact h.compare_eq a b ha hb
    · rename_i hne
      have hd : C.sortPrefix a ≠ C.sortPrefix b := by
        intro he
        exact hne (by rw [he]; exact Nat.compare_eq_eq.mpr rfl)
      rw [h.sortPrefix_eq hp a b ha hb hd]
  · exact h.compare_eq a b ha hb

def compareKeys (a b : Bytes) : Ordering :=
  (compare (userKey a) (userKey b)).then (compare (packed b) (packed a))

instance : Std.TransCmp compareKeys :=
  inferInstanceAs (Std.TransCmp (compareLex (compareOn userKey)
    (fun a b => compareOn packed b a)))

theorem splitSuffix_ok {k : Bytes} (h : WellFormed k) :
    splitSuffix k = .ok (userKey k,k.drop (k.length-numInternalBytes)) := by
  rw [splitSuffix,checkedSub_of_le (show suffixLen ≤ k.length from h)]
  rfl

theorem internalKeyCompare_ok {a b : Bytes} (ha : WellFormed a) (hb : WellFormed b) :
    internalKeyCompare a b = .ok (compareKeys a b) := by
  simp only [internalKeyCompare,splitSuffix_ok ha,splitSuffix_ok hb,ok_bind,compareKeys,packed]
  cases compare (userKey a) (userKey b) <;> rfl

theorem compareUserKeys_ok {a b : Bytes} (ha : WellFormed a) (hb : WellFormed b) :
    compareUserKeys a b = .ok (compare (userKey a) (userKey b)) := by
  simp only [compareUserKeys,cmpUserKey,splitSuffix_ok ha,splitSuffix_ok hb,ok_bind,pure_eq_ok]

theorem compareKeys_eq_iff {a b : Bytes} (ha : WellFormed a) (hb : WellFormed b) :
    compareKeys a b = .eq ↔ a = b := by
  constructor
  · intro h
    obtain ⟨hu,hp⟩ := Ordering.then_eq_eq.mp h
    exact key_ext ha hb (Std.LawfulEqOrd.eq_of_compare hu) (Nat.compare_eq_eq.mp hp).symm
  · intro hh
    subst hh
    exact Std.ReflCmp.compare_self

theorem compareBytes_swap (a b : Bytes) : compare b a = (compare a b).swap :=
  Std.OrientedCmp.eq_swap

theorem compareKeys_swap (a b : Bytes) : compareKeys b a = (compareKeys a b).swap :=
  Std.OrientedCmp.eq_swap

theorem compareKeys_trans {a b c : Bytes} (h₁ : compareKeys a b ≠ .gt)
    (h₂ : compareKeys b c ≠ .gt) : compareKeys a c ≠ .gt := by
  apply Ordering.isLE_iff_ne_gt.mp
  exact Std.TransCmp.isLE_trans (Ordering.isLE_iff_ne_gt.mpr h₁) (Ordering.isLE_iff_ne_gt.mpr h₂)

theorem internalKeyComparator_orders :
    OrdersAs internalKeyComparator WellFormed compareKeys where
  compare_eq := fun _ _ ha hb => internalKeyCompare_ok ha hb
  swap := fun a b _ _ => compareKeys_swap a b
  trans := fun _ _ _ _ _ _ h₁ h₂ => compareKeys_trans h₁ h₂
  sortPrefix_eq := by intro h; simp [internalKeyComparator] at h

theorem compareKeys_same_user {a b : Bytes} (h : userKey a = userKey b) :
    compareKeys a b = compare (packed b) (packed a) := by
  have hc : compare (userKey b) (userKey b) = .eq := Std.ReflCmp.compare_self
  rw [compareKeys,h,hc]
  rfl

theorem compare_user_of_le {a b : Bytes} (h : compareKeys a b ≠ .gt) :
    compare (userKey a) (userKey b) ≠ .gt := by
  intro hg
  rw [compareKeys,hg] at h
  exact h rfl

def SortedEntries (es : List Entry) : Prop :=
  es.Pairwise (fun a b => compareKeys a.1 b.1 ≠ .gt)

instance (es : List Entry) : Decidable (SortedEntries es) :=
  List.instDecidablePairwise (R:=fun a b : Entry => compareKeys a.1 b.1 ≠ .gt) es

end SstCompactor
