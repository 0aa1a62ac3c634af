import Mathlib.Data.Nat.Bitwise

set_option autoImplicit false

abbrev Bytes := List UInt8

namespace FixedWidth

def leBytes : Nat → Nat → Bytes
  | 0, _ => []
  | w+1, v => UInt8.ofNat v :: leBytes w (v/256)

def ofLe : Bytes → Nat
  | [] => 0
  | b :: bs => b.toNat + 256*ofLe bs

@[simp] theorem leBytes_length (w v : Nat) : (leBytes w v).length = w := by
  induction w generalizing v with
  | zero => rfl
  | succ w ih => simp [leBytes,ih]

theorem ofLe_leBytes (w v : Nat) : ofLe (leBytes w v) = v % 256^w := by
  induction w generalizing v with
  | zero => simp [leBytes,ofLe,Nat.mod_one]
  | succ w ih =>
    have hd : v % 256^(w+1) = v % 256 + 256*(v/256 % 256^w) := by
      rw [Nat.pow_succ,Nat.mul_comm (256^w) 256,Nat.mod_mul]
    simp only [leBytes,ofLe,ih,UInt8.toNat_ofNat',hd]

theorem ofLe_leBytes_of_lt {w v : Nat} (h : v < 256^w) : ofLe (leBytes w v) = v := by
  rw [ofLe_leBytes,Nat.mod_eq_of_lt h]

theorem leBytes_ofLe (bs : Bytes) : leBytes bs.length (ofLe bs) = bs := by
  induction bs with
  | nil => rfl
  | cons b bs ih =>
    have hb := b.toNat_lt
    have hd : (b.toNat + 256*ofLe bs)/256 = ofLe bs := by omega
    have hm : UInt8.ofNat (b.toNat + 256*ofLe bs) = b := by
      apply UInt8.toNat_inj.mp
      rw [UInt8.toNat_ofNat']
      omega
    simp only [List.length_cons,ofLe,leBytes,hd,hm,ih]

theorem ofLe_lt (bs : Bytes) : ofLe bs < 256^bs.length := by
  induction bs with
  | nil => decide
  | cons b bs ih =>
    have hb := b.toNat_lt
    simp only [ofLe,List.length_cons,Nat.pow_succ]
    omega

theorem leBytes_inj {w a b : Nat} (ha : a < 256^w) (hb : b < 256^w)
    (h : leBytes w a = leBytes w b) : a = b := by
  rw [← ofLe_leBytes_of_lt ha,h,ofLe_leBytes_of_lt hb]

end FixedWidth
