import SstCompactor.Merge.Cmp
import SstCompactor.Codec.BigEndian

set_option autoImplicit false

namespace SstCompactor
open FixedWidth

theorem loadBePrefix_eq (key : Bytes) : loadBePrefix key = ofLe (pad 8 key).reverse := rfl

theorem loadBePrefix_compare {a b : Bytes} (h : loadBePrefix a ≠ loadBePrefix b) :
    compare (loadBePrefix a) (loadBePrefix b) = compare a b := by
  have hne : pad 8 a ≠ pad 8 b := fun he => h (by rw [loadBePrefix_eq,he,loadBePrefix_eq])
  rw [loadBePrefix_eq,loadBePrefix_eq,
    compare_ofLe_reverse (by rw [pad_length,pad_length]),compare_pad hne]

/-- A shortcut through `load_be_prefix` never changes a bytewise order. -/
theorem prefix_keeps_order :
    (∀ a b, loadBePrefix a ≠ loadBePrefix b →
      compare (loadBePrefix a) (loadBePrefix b) = compare a b) ∧
    ∀ C : KeyComparator, C.hasSortPrefix = true → (∀ a b, C.compare a b = .ok (compare a b)) →
      C.sortPrefix = loadBePrefix → ∀ a b, compareWithPrefix C a b = C.compare a b := by
  refine ⟨fun a b h => loadBePrefix_compare h,fun C hp hc hs a b => ?_⟩
  have ho : OrdersAs C (fun _ => True) compare := {
    compare_eq := fun a b _ _ => hc a b
    swap := fun a b _ _ => compareBytes_swap a b
    trans := by
      intro a b c _ _ _ h₁ h₂
      apply Ordering.isLE_iff_ne_gt.mp
      exact Std.TransCmp.isLE_trans (Ordering.isLE_iff_ne_gt.mpr h₁)
        (Ordering.isLE_iff_ne_gt.mpr h₂)
    sortPrefix_eq := by
      intro _ a b _ _ hne
      rw [hs] at hne ⊢
      exact loadBePrefix_compare hne }
  rw [ho.compareWithPrefix_eq trivial trivial,hc a b]

def ValueType.byte : ValueType → UInt8
  | .deletion => 0x0
  | .value => 0x1
  | .merge => 0x2
  | .singleDeletion => 0x7
  | .rangeDeletion => 0xF
  | .blobIndex => 0x11
  | .other b => b

theorem ValueType.byte_fromByte (b : UInt8) : (ValueType.fromByte b).byte = b := by
  unfold ValueType.fromByte
  split_ifs with h₁ h₂ h₃ h₄ h₅ h₆
  · exact h₁.symm
  · exact h₂.symm
  · exact h₃.symm
  · exact h₄.symm
  · exact h₅.symm
  · exact h₆.symm
  · rfl

def compareFields (x y : InternalKey) : Ordering :=
  (compare x.userKey y.userKey).then ((compare y.sequence x.sequence).then
    (compare y.valueType.byte x.valueType.byte))

theorem valueType_byte (k : Bytes) : (valueType k).byte.toNat = packed k % 256 := by
  rw [valueType,ValueType.byte_fromByte,UInt8.toNat_ofNat']
  rw [show (0xff : Nat) = 2^8-1 from rfl,Nat.and_two_pow_sub_one_eq_mod]
  omega

theorem compareKeys_eq_fields (a b : Bytes) :
    compareKeys a b = compareFields (internalKeyOf a) (internalKeyOf b) := by
  have hsplit : compare (packed b) (packed a) =
      (compare (sequence b) (sequence a)).then
        (compare (valueType b).byte (valueType a).byte) := by
    rw [← compare_toNat,valueType_byte,valueType_byte,sequence_eq,sequence_eq,
      ← compare_mul_add (m:=256) (Nat.mod_lt _ (by decide)) (Nat.mod_lt _ (by decide)),
      Nat.mod_add_div,Nat.mod_add_div]
  rw [compareKeys,hsplit]
  rfl

abbrev LongKey := {k : Bytes // WellFormed k}

def AtMost (a b : LongKey) : Prop := ∃ o, internalKeyCompare a.1 b.1 = .ok o ∧ o ≠ .gt

theorem atMost_iff {a b : LongKey} : AtMost a b ↔ compareKeys a.1 b.1 ≠ .gt := by
  simp [AtMost,internalKeyCompare_ok a.2 b.2]

theorem AtMost.trans {a b c : LongKey} (h₁ : AtMost a b) (h₂ : AtMost b c) : AtMost a c :=
  atMost_iff.mpr (compareKeys_trans (atMost_iff.mp h₁) (atMost_iff.mp h₂))

theorem user_le_of_sorted {keys : List LongKey} (hs : keys.Pairwise AtMost) {i j : Nat}
    (hij : i ≤ j) (hj : j < keys.length) :
    compare (userKey keys[i].1) (userKey keys[j].1) ≠ .gt := by
  rcases Nat.eq_or_lt_of_le hij with rfl | hlt
  · have hc : compare (userKey keys[i].1) (userKey keys[i].1) = .eq := Std.ReflCmp.compare_self
    rw [hc]
    decide
  · have h := List.pairwise_iff_getElem.mp hs i j (by omega) hj hlt
    exact compare_user_of_le (atMost_iff.mp h)

/-- What a list of keys in internal order has: the versions of a user key side by side, user
keys that never go down, and keys below a boundary in front of all others. -/
structure SortedVersions (keys : List LongKey) : Prop where
  together : ∀ i j k, i ≤ j → j ≤ k → (hi : i < keys.length) → (hj : j < keys.length) →
    (hk : k < keys.length) → userKey keys[i].1 = userKey keys[k].1 →
    userKey keys[j].1 = userKey keys[i].1
  ascend : ∀ i j, i ≤ j → (hi : i < keys.length) → (hj : j < keys.length) →
    ∃ o, compareUserKeys keys[i].1 keys[j].1 = .ok o ∧ o ≠ .gt
  below : ∀ (boundary : LongKey) i j, i ≤ j → (hi : i < keys.length) → (hj : j < keys.length) →
    compareUserKeys keys[j].1 boundary.1 = .ok .lt →
    compareUserKeys keys[i].1 boundary.1 = .ok .lt

theorem sortedVersions_of_sorted {keys : List LongKey} (hs : keys.Pairwise AtMost) :
    SortedVersions keys where
  together := by
    intro i j k hij hjk hi hj hk he
    have h₁ := user_le_of_sorted hs hij hj
    have h₂ := user_le_of_sorted hs hjk hk
    rw [← he,compareBytes_swap] at h₂
    have hc : compare (userKey keys[i].1) (userKey keys[j].1) = .eq := by
      cases ho : compare (userKey keys[i].1) (userKey keys[j].1) with
      | lt => rw [ho] at h₂; exact absurd rfl h₂
      | eq => rfl
      | gt => exact absurd ho h₁
    exact (Std.LawfulEqOrd.eq_of_compare hc).symm
  ascend := fun i j hij hi hj =>
    ⟨_,compareUserKeys_ok keys[i].2 keys[j].2,user_le_of_sorted hs hij hj⟩
  below := by
    intro boundary i j hij hi hj h
    rw [compareUserKeys_ok keys[j].2 boundary.2,Except.ok.injEq] at h
    rw [compareUserKeys_ok keys[i].2 boundary.2,Except.ok.injEq]
    have hle := Ordering.isLE_iff_ne_gt.mpr (user_le_of_sorted hs hij hj)
    exact Std.TransCmp.lt_of_isLE_of_lt hle h

/-- Internal keys are totally ordered, by the fields that `split` finds in them. -/
theorem internalKey_order :
    (∀ a b : LongKey, ∃ x y, split a.1 = .ok x ∧ split b.1 = .ok y ∧
      internalKeyCompare a.1 b.1 = .ok (compareFields x y) ∧
      compareUserKeys a.1 b.1 = .ok (compare x.userKey y.userKey)) ∧
    (∀ (a b : LongKey) (o : Ordering), internalKeyCompare a.1 b.1 = .ok o →
      internalKeyCompare b.1 a.1 = .ok o.swap ∧ (o = .eq ↔ a.1 = b.1)) ∧
    (∀ a b c : LongKey, AtMost a b → AtMost b c → AtMost a c) ∧
    ∀ keys : List LongKey, keys.Pairwise AtMost → SortedVersions keys := by
  refine ⟨fun a b => ?_,fun a b o h => ?_,fun a b c => .trans,fun keys => sortedVersions_of_sorted⟩
  · refine ⟨internalKeyOf a.1,internalKeyOf b.1,split_ok a.2,split_ok b.2,?_,
      compareUserKeys_ok a.2 b.2⟩
    rw [internalKeyCompare_ok a.2 b.2,compareKeys_eq_fields]
  · rw [internalKeyCompare_ok a.2 b.2,Except.ok.injEq] at h
    subst h
    refine ⟨?_,compareKeys_eq_iff a.2 b.2⟩
    rw [internalKeyCompare_ok b.2 a.2,compareKeys_swap a.1 b.1]

end SstCompactor
