import SstCompactor.Codec.FixedWidth

/-!
Base-128 variable-length numbers: seven payload bits a byte, least significant
group first, the high bit set on every byte but the last. The number of groups
and the width of the accumulator are parameters.
-/

set_option autoImplicit false

namespace Leb128

def put : Nat → Nat → Bytes
  | 0, _ => []
  | g+1, v =>
    if v < 0x80 then [UInt8.ofNat v]
    else ((UInt8.ofNat v &&& 0x7f) ||| 0x80) :: put g (v >>> 7)

/-- One pass over the bytes from position `p`: the accumulator is `w` bits wide and
a continuation that would shift by `w` or more is refused. -/
def get (w : Nat) (buf : Bytes) : (fuel shift result p : Nat) → Option (Nat × Nat)
  | 0, _, _, _ => none
  | fuel+1, shift, result, p => do
      let byte ← buf[p]?
      let result := result ||| (((byte &&& 0x7f).toNat <<< shift) % 2^w)
      if byte &&& 0x80 = 0 then some (result,p+1)
      else if shift+7 ≥ w then none
      else get w buf fuel (shift+7) result (p+1)

theorem and_low (b : UInt8) : (b &&& 0x7f).toNat = b.toNat % 128 := by
  rw [UInt8.toNat_and]
  exact Nat.and_two_pow_sub_one_eq_mod b.toNat 7

theorem and_high (b : UInt8) : b &&& 0x80 = 0 ↔ b.toNat < 128 := by
  have h : ∀ i : Fin 256, (UInt8.ofNat i.val &&& 0x80 = 0) ↔ i.val < 128 := by decide +kernel
  have hb := h ⟨b.toNat,b.toNat_lt⟩
  simpa using hb

theorem or_high (b : UInt8) : ((b &&& 0x7f) ||| 0x80).toNat = b.toNat % 128 + 128 := by
  have h : ∀ i : Fin 256, ((UInt8.ofNat i.val &&& 0x7f) ||| 0x80).toNat = i.val % 128 + 128 := by
    decide +kernel
  have hb := h ⟨b.toNat,b.toNat_lt⟩
  simpa using hb

/-- The byte written for a group that is not the last. -/
def more (v : Nat) : UInt8 := (UInt8.ofNat v &&& 0x7f) ||| 0x80

theorem more_toNat (v : Nat) : (more v).toNat = v % 128 + 128 := by
  simp only [more,or_high,UInt8.toNat_ofNat']
  omega

theorem put_last {g v : Nat} (h : v < 128) : put (g+1) v = [UInt8.ofNat v] := by
  simp [put,h]

theorem put_more {g v : Nat} (h : 128 ≤ v) : put (g+1) v = more v :: put g (v/128) := by
  have hn : ¬ v < 128 := by omega
  simp [put,hn,more,Nat.shiftRight_eq_div_pow]

theorem put_length_pos (g v : Nat) : 1 ≤ (put (g+1) v).length := by
  by_cases h : v < 128
  · simp [put_last h]
  · simp [put_more (g:=g) (Nat.le_of_not_lt h)]

theorem put_length_le (g v : Nat) : (put g v).length ≤ g := by
  induction g generalizing v with
  | zero => simp [put]
  | succ g ih =>
    by_cases h : v < 128
    · simp [put_last h]
    · have hv := ih (v/128)
      simp only [put_more (Nat.le_of_not_lt h),List.length_cons]
      omega

/-- The codes of a number: groups of which every one but the last has the high bit set. Zero
groups at the end make no difference to the number. -/
inductive Code : Bytes → Nat → Prop where
  | last {b : UInt8} : b.toNat < 128 → Code [b] b.toNat
  | more {b : UInt8} {bs : Bytes} {v : Nat} :
      128 ≤ b.toNat → Code bs v → Code (b :: bs) (b.toNat % 128+128*v)

theorem Code.length_pos {bs : Bytes} {v : Nat} (h : Code bs v) : 1 ≤ bs.length := by
  cases h with
  | last _ => simp
  | more _ _ => simp

theorem add_mod_of_lt {x y s w : Nat} (hx : x < 2^s) (hw : s ≤ w) :
    (x+y*2^s) % 2^w = x+y*2^s % 2^w := by
  obtain ⟨d,rfl⟩ := Nat.exists_eq_add_of_le hw
  have hy : y*2^s % 2^(s+d) = y % 2^d*2^s := by
    rw [Nat.pow_add,Nat.mul_comm (2^s),Nat.mul_mod_mul_right]
  have hlt : x+y % 2^d*2^s < 2^(s+d) := by
    have h₁ := Nat.mul_le_mul_right (2^s) (Nat.mod_lt y (Nat.two_pow_pos d))
    rw [Nat.succ_mul] at h₁
    rw [Nat.pow_add,Nat.mul_comm (2^s)]
    omega
  rw [Nat.add_mod,hy,Nat.mod_eq_of_lt (Nat.lt_of_le_of_lt (Nat.le_add_right x _) hlt),
    Nat.mod_eq_of_lt hlt]

/-- OR-ing a group into a clear place, where the accumulator may be too narrow for it. -/
theorem group_or_mod {w shift result : Nat} (a : Nat) (hr : result < 2^shift) (hs : shift ≤ w) :
    result ||| ((a <<< shift) % 2^w) = result+a*2^shift % 2^w := by
  obtain ⟨d,rfl⟩ := Nat.exists_eq_add_of_le hs
  have ha : a*2^shift % 2^(shift+d) = a % 2^d*2^shift := by
    rw [Nat.pow_add,Nat.mul_comm (2^shift),Nat.mul_mod_mul_right]
  rw [Nat.shiftLeft_eq,ha,Nat.lor_comm,← Nat.shiftLeft_eq,← Nat.shiftLeft_add_eq_or_of_lt hr,
    Nat.add_comm]

theorem get_byte {w : Nat} {buf : Bytes} {fuel shift result p : Nat} {b : UInt8}
    (hp : buf[p]? = some b) (hr : result < 2^shift) (hs : shift ≤ w) :
    get w buf (fuel+1) shift result p =
      if b.toNat < 128 then some (result+b.toNat*2^shift % 2^w,p+1)
      else if shift+7 ≥ w then none
      else get w buf fuel (shift+7) (result+b.toNat % 128*2^shift) (p+1) := by
  simp only [get,hp,Option.bind_eq_bind,Option.bind_some,and_high,and_low,
    group_or_mod _ hr hs]
  by_cases hb : b.toNat < 128
  · simp only [hb,↓reduceIte,Nat.mod_eq_of_lt hb]
  · by_cases hw : shift+7 ≥ w
    · simp only [hb,hw,↓reduceIte]
    · have hlt : b.toNat % 128*2^shift < 2^w := by
        have h₁ := Nat.mul_lt_mul_of_pos_right (Nat.mod_lt b.toNat (by decide : 0 < 128))
          (Nat.two_pow_pos shift)
        have h₂ : 2^(shift+7) ≤ 2^w := Nat.pow_le_pow_right (by decide) (by omega)
        rw [Nat.pow_add] at h₂
        omega
      simp only [hb,hw,↓reduceIte,Nat.mod_eq_of_lt hlt]

theorem more_lt {shift result : Nat} (b : UInt8) (hr : result < 2^shift) :
    result+b.toNat % 128*2^shift < 2^(shift+7) := by
  have h := Nat.mul_le_mul_right (2^shift) (Nat.mod_lt b.toNat (by decide : 0 < 128))
  rw [Nat.succ_mul] at h
  rw [Nat.pow_add]
  omega

theorem more_value {shift w : Nat} (b : UInt8) (v result : Nat) (hs : shift+7 ≤ w) :
    result+b.toNat % 128*2^shift+v*2^(shift+7) % 2^w =
      result+(b.toNat % 128+128*v)*2^shift % 2^w := by
  have hlt := more_lt b (Nat.two_pow_pos shift)
  have hpow : (b.toNat % 128+128*v)*2^shift = b.toNat % 128*2^shift+v*2^(shift+7) := by
    rw [Nat.add_mul,Nat.pow_add,Nat.mul_comm 128 v,Nat.mul_assoc,Nat.mul_comm 128]
  rw [hpow,add_mod_of_lt (by omega) hs,Nat.add_assoc]

theorem get_code {w : Nat} {buf code post : Bytes} {fuel shift result p v : Nat}
    (hc : Code code v) (hp : buf.drop p = code ++ post) (hr : result < 2^shift)
    (hs : shift+7*(code.length-1) < w) (hf : code.length ≤ fuel) :
    get w buf fuel shift result p = some (result+v*2^shift % 2^w,p+code.length) := by
  induction hc generalizing fuel shift result p with
  | @last b hb =>
    obtain ⟨fuel,rfl⟩ := Nat.exists_eq_add_of_le' hf
    have hget : buf[p]? = some b := by
      rw [← List.head?_drop,hp]
      rfl
    rw [List.length_singleton,get_byte hget hr (by omega),if_pos hb]
  | @more b bs v hb hc ih =>
    obtain ⟨fuel,rfl⟩ := Nat.exists_eq_add_of_le' (Nat.le_trans (Nat.le_add_left 1 _) hf)
    have hget : buf[p]? = some b := by
      rw [← List.head?_drop,hp]
      rfl
    have hnext : buf.drop (p+1) = bs ++ post := by
      rw [← List.drop_drop,hp]
      rfl
    have hpos := hc.length_pos
    simp only [List.length_cons] at hs hf ⊢
    rw [get_byte hget hr (by omega),if_neg (by omega),if_neg (by omega),
      ih hnext (more_lt b hr) (by omega) (by omega),more_value b v result (by omega),
      Nat.add_assoc p,Nat.add_comm 1]

theorem get_sound {w : Nat} {buf : Bytes} {fuel shift result p v q : Nat}
    (h : get w buf fuel shift result p = some (v,q)) (hr : result < 2^shift) (hs : shift < w) :
    ∃ code n, Code code n ∧ buf.drop p = code ++ buf.drop q ∧ q = p+code.length ∧
      shift+7*(code.length-1) < w ∧ v = result+n*2^shift % 2^w := by
  induction fuel generalizing shift result p with
  | zero => simp [get] at h
  | succ fuel ih =>
    cases hp : buf[p]? with
    | none => simp [get,hp] at h
    | some b =>
      have hdrop : buf.drop p = b :: buf.drop (p+1) := by
        obtain ⟨hlt,rfl⟩ := List.getElem?_eq_some_iff.mp hp
        exact List.drop_eq_getElem_cons hlt
      rw [get_byte hp hr (Nat.le_of_lt hs)] at h
      split at h
      · rename_i hb
        rw [Option.some.injEq,Prod.mk.injEq] at h
        obtain ⟨rfl,rfl⟩ := h
        exact ⟨[b],b.toNat,.last hb,hdrop,rfl,by simpa using hs,rfl⟩
      · rename_i hb
        split at h
        · contradiction
        · rename_i hw
          obtain ⟨code,n,hc,hd,rfl,hlen,hv⟩ := ih h (more_lt b hr) (by omega)
          have hpos := hc.length_pos
          refine ⟨b :: code,b.toNat % 128+128*n,.more (by omega) hc,?_,?_,?_,?_⟩
          · rw [hdrop,hd,List.cons_append]
          · rw [List.length_cons]
            omega
          · rw [List.length_cons]
            omega
          · rw [hv,more_value b n result (by omega)]

theorem put_code {g v : Nat} (h : v < 128^g) (hg : 1 ≤ g) : Code (put g v) v := by
  induction g generalizing v with
  | zero => omega
  | succ g ih =>
    by_cases hv : v < 128
    · have hn : (UInt8.ofNat v).toNat = v := by rw [UInt8.toNat_ofNat']; omega
      have hlast := Code.last (b:=UInt8.ofNat v) (by omega)
      rwa [hn,← put_last (g:=g) hv] at hlast
    · have hg : 1 ≤ g := by
        cases g with
        | zero => omega
        | succ g => omega
      have hdiv : v/128 < 128^g := by
        rw [Nat.pow_succ] at h
        exact Nat.div_lt_of_lt_mul (by rwa [Nat.mul_comm])
      have hm := more_toNat v
      have hmore := Code.more (b:=more v) (by omega) (ih hdiv hg)
      rw [show (more v).toNat % 128+128*(v/128) = v by omega] at hmore
      rwa [put_more (Nat.le_of_not_lt hv)]

theorem Code.eq_of_append {a b x y : Bytes} {m n : Nat} (ha : Code a m) (hb : Code b n)
    (h : a ++ x = b ++ y) : a = b ∧ m = n := by
  induction ha generalizing b n with
  | last hlt =>
    cases hb with
    | last _ =>
      obtain rfl := (List.cons.inj h).1
      exact ⟨rfl,rfl⟩
    | more hge _ =>
      obtain rfl := (List.cons.inj h).1
      omega
  | more hge _ ih =>
    cases hb with
    | last _ =>
      obtain rfl := (List.cons.inj h).1
      omega
    | more _ hb =>
      obtain ⟨rfl,htail⟩ := List.cons.inj h
      obtain ⟨rfl,rfl⟩ := ih hb htail
      exact ⟨rfl,rfl⟩

theorem get_cut {w : Nat} {buf code : Bytes} {fuel shift result p v k : Nat}
    (hc : Code code v) (hk : k < code.length) (hp : buf.drop p = code.take k)
    (hr : result < 2^shift) (hs : shift < w) : get w buf fuel shift result p = none := by
  cases hg : get w buf fuel shift result p with
  | none => rfl
  | some r =>
    obtain ⟨code',n,hc',hd,-,-,-⟩ := get_sound hg hr hs
    have heq : code' ++ (buf.drop r.2 ++ code.drop k) = code ++ [] := by
      rw [← List.append_assoc,← hd,hp,List.take_append_drop,List.append_nil]
    obtain ⟨rfl,-⟩ := hc'.eq_of_append hc heq
    have hlen := congrArg List.length (hp.symm.trans hd)
    rw [List.length_take,List.length_append] at hlen
    omega

end Leb128
