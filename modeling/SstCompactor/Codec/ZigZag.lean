import Mathlib.Data.Nat.Bitwise

set_option autoImplicit false

namespace ZigZag

variable {w : Nat}

def put (x : BitVec w) : BitVec w := (x <<< 1) ^^^ x.sshiftRight (w-1)

def get (u : BitVec w) : BitVec w := (u >>> 1) ^^^ (0-(u &&& 1))

theorem put_bit (x : BitVec w) {i : Nat} (hi : i < w) :
    (put x).getLsbD i = ((decide (0 < i) && x.getLsbD (i-1)) ^^ x.msb) := by
  rw [put,BitVec.getLsbD_xor,BitVec.getLsbD_shiftLeft,BitVec.getLsbD_sshiftRight,
    BitVec.msb_eq_getLsbD_last]
  by_cases h0 : i = 0
  · subst h0
    simp
    omega
  · have h1 : ¬ w-1+i < w := by omega
    have h2 : 0 < i := by omega
    have h3 : ¬ i < 1 := by omega
    simp [hi,h1,h2,h3]

theorem mask_bit (u : BitVec w) {i : Nat} (hi : i < w) :
    (0#w-(u &&& 1#w)).getLsbD i = u.getLsbD 0 := by
  have hone : u &&& 1#w = if u.getLsbD 0 then 1#w else 0#w := by
    rw [BitVec.and_one_eq_setWidth_ofBool_getLsbD]
    cases u.getLsbD 0 with
    | false => simp
    | true => exact BitVec.setWidth_ofNat_one_eq_ofNat_one_of_lt Nat.one_pos
  rw [BitVec.zero_sub,hone]
  cases u.getLsbD 0 with
  | false => simp
  | true => simp [BitVec.neg_one_eq_allOnes,hi]

theorem get_bit (u : BitVec w) {i : Nat} (hi : i < w) :
    (get u).getLsbD i = (u.getLsbD (1+i) ^^ u.getLsbD 0) := by
  rw [get,BitVec.getLsbD_xor,BitVec.getLsbD_ushiftRight]
  change (u.getLsbD (1+i) ^^ (0#w-(u &&& 1#w)).getLsbD i) = _
  rw [mask_bit u hi]

theorem get_put (x : BitVec w) : get (put x) = x := by
  apply BitVec.eq_of_getLsbD_eq
  intro i hi
  have h0 : (put x).getLsbD 0 = x.msb := by simpa using put_bit x (i:=0) (by omega)
  rw [get_bit (put x) hi,h0]
  by_cases hl : 1+i < w
  · rw [put_bit x hl]
    have hp : 0 < 1+i := by omega
    simp [hp]
  · -- Only the sign bit is left, and nothing was shifted into its place.
    have hz : (put x).getLsbD (1+i) = false := BitVec.getLsbD_of_ge _ _ (by omega)
    rw [hz,BitVec.msb_eq_getLsbD_last,show w-1 = i by omega]
    simp

theorem put_get (u : BitVec w) : put (get u) = u := by
  apply BitVec.eq_of_getLsbD_eq
  intro i hi
  have hsign : (get u).msb = u.getLsbD 0 := by
    rw [BitVec.msb_eq_getLsbD_last,get_bit u (by omega),BitVec.getLsbD_of_ge u _ (by omega)]
    simp
  rw [put_bit _ hi,hsign]
  cases i with
  | zero => simp
  | succ i =>
    rw [Nat.add_sub_cancel,get_bit u (by omega),Nat.add_comm 1 i]
    simp

end ZigZag
