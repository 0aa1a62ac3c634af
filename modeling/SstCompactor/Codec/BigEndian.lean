import SstCompactor.Codec.FixedWidth
import Mathlib.Order.Compare

set_option autoImplicit false

namespace FixedWidth

theorem ofLe_append (x y : Bytes) : ofLe (x ++ y) = ofLe x+256^x.length*ofLe y := by
  induction x with
  | nil => simp [ofLe]
  | cons b x ih =>
    have hm : 256*(256^x.length*ofLe y) = 256^(x.length+1)*ofLe y := by
      rw [← Nat.mul_assoc,Nat.pow_succ,Nat.mul_comm 256]
    simp only [List.cons_append,ofLe,ih,List.length_cons,Nat.mul_add,hm,Nat.add_assoc]

theorem compare_mul_add {m q q' r r' : Nat} (hr : r < m) (hr' : r' < m) :
    compare (r+m*q) (r'+m*q') = (compare q q').then (compare r r') := by
  rcases Nat.lt_trichotomy q q' with hq | rfl | hq
  · have hle : m*(q+1) ≤ m*q' := Nat.mul_le_mul_left m hq
    rw [Nat.mul_add] at hle
    rw [Nat.compare_eq_lt.mpr hq,Nat.compare_eq_lt.mpr (by omega)]
    rfl
  · rw [Nat.compare_eq_eq.mpr rfl,Ordering.eq_then]
    rcases Nat.lt_trichotomy r r' with h | rfl | h
    · rw [Nat.compare_eq_lt.mpr h,Nat.compare_eq_lt.mpr (by omega)]
    · rw [Nat.compare_eq_eq.mpr rfl,Nat.compare_eq_eq.mpr rfl]
    · rw [Nat.compare_eq_gt.mpr h,Nat.compare_eq_gt.mpr (by omega)]
  · have hle : m*(q'+1) ≤ m*q := Nat.mul_le_mul_left m hq
    rw [Nat.mul_add] at hle
    rw [Nat.compare_eq_gt.mpr hq,Nat.compare_eq_gt.mpr (by omega)]
    rfl

theorem compare_toNat (a b : UInt8) : compare a.toNat b.toNat = compare a b := by
  simp only [compare,compareOfLessAndEq,UInt8.lt_iff_toNat_lt,UInt8.toNat_inj]

theorem compare_ofLe_reverse {x y : Bytes} (h : x.length = y.length) :
    compare (ofLe x.reverse) (ofLe y.reverse) = compare x y := by
  induction x generalizing y with
  | nil =>
    obtain rfl : y = [] := List.length_eq_zero_iff.mp h.symm
    rfl
  | cons a x ih =>
    obtain ⟨b,y,rfl⟩ := List.exists_cons_of_ne_nil (l:=y) (by rintro rfl; simp at h)
    have hl : x.length = y.length := by simpa using h
    have hx := ofLe_lt x.reverse
    have hy := ofLe_lt y.reverse
    rw [List.length_reverse] at hx hy
    rw [← hl] at hy
    simp only [List.reverse_cons,ofLe_append,List.length_reverse,ofLe,Nat.mul_zero,Nat.add_zero,
      ← hl]
    rw [compare_mul_add hx hy,ih hl,compare_toNat,List.compare_cons_cons]

def pad (n : Nat) (bs : Bytes) : Bytes := bs.take n ++ List.replicate (n-min bs.length n) 0

theorem pad_nil (n : Nat) : pad (n+1) [] = 0 :: pad n [] := by
  simp [pad,List.replicate_succ]

theorem pad_cons (n : Nat) (b : UInt8) (bs : Bytes) : pad (n+1) (b :: bs) = b :: pad n bs := by
  simp [pad]

theorem pad_length (n : Nat) (bs : Bytes) : (pad n bs).length = n := by
  simp only [pad,List.length_append,List.length_take,List.length_replicate]
  omega

theorem compare_pad_nil {n : Nat} {bs : Bytes} (h : pad n [] ≠ pad n bs) :
    compare (pad n []) (pad n bs) = .lt := by
  induction n generalizing bs with
  | zero => exact absurd (by simp [pad]) h
  | succ n ih =>
    cases bs with
    | nil => exact absurd rfl h
    | cons b bs =>
      rw [pad_nil,pad_cons] at h ⊢
      rw [List.compare_cons_cons]
      by_cases hb : b = 0
      · subst hb
        rw [ih (fun he => h (by rw [he]))]
        rfl
      · have hlt : compare (0 : UInt8) b = .lt := by
          rw [← compare_toNat]
          refine Nat.compare_eq_lt.mpr (Nat.pos_of_ne_zero (fun hz => hb ?_))
          exact UInt8.toNat_inj.mp hz
        rw [hlt]
        rfl

theorem compare_pad {n : Nat} {a b : Bytes} (h : pad n a ≠ pad n b) :
    compare (pad n a) (pad n b) = compare a b := by
  induction n generalizing a b with
  | zero => exact absurd (by simp [pad]) h
  | succ n ih =>
    cases a with
    | nil =>
      cases b with
      | nil => exact absurd rfl h
      | cons y b => rw [compare_pad_nil h]; rfl
    | cons x a =>
      cases b with
      | nil =>
        have hs : compare (pad (n+1) (x :: a)) (pad (n+1) []) =
            (compare (pad (n+1) []) (pad (n+1) (x :: a))).swap := Std.OrientedCmp.eq_swap
        rw [hs,compare_pad_nil h.symm]
        rfl
      | cons y b =>
        rw [pad_cons,pad_cons] at h ⊢
        rw [List.compare_cons_cons,List.compare_cons_cons]
        by_cases hxy : x = y
        · subst hxy
          rw [ih (fun he => h (by rw [he]))]
        · have hne : compare x y ≠ .eq := fun he => hxy (Std.LawfulEqOrd.eq_of_compare he)
          cases hc : compare x y with
          | lt => rfl
          | eq => exact absurd hc hne
          | gt => rfl

end FixedWidth
