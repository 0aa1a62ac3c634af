import SstCompactor.Exec
import SstCompactor.Codec.Leb128

set_option autoImplicit false

namespace SstCompactor

/-- The value read at `pos` and the position afterwards, which moves only on success. -/
def getVarint64 (buf : Bytes) (pos : Nat) : Option UInt64 × Nat :=
  match Leb128.get 64 buf 10 0 0 pos with
  | some (v,p) => (some (UInt64.ofNat v),p)
  | none => (none,pos)

def getVarint32 (buf : Bytes) (pos : Nat) : Option UInt32 × Nat :=
  match getVarint64 buf pos with
  | (some v,p) => if v.toNat > 0xffffffff then (none,p) else (some v.toUInt32,p)
  | (none,p) => (none,p)

def putVarint64 (v : UInt64) : Bytes := Leb128.put 10 v.toNat

def putVarint32 (v : UInt32) : Bytes := putVarint64 v.toUInt64

/-- `get_varint32(buf, &mut pos).ok_or(msg)?`. -/
def readVarint32 (buf : Bytes) (pos : Nat) (msg : String) : Exec (UInt32 × Nat) := do
  let (v,p) := getVarint32 buf pos
  let v ← okOr v msg
  pure (v,p)

def readVarint64 (buf : Bytes) (pos : Nat) (msg : String) : Exec (UInt64 × Nat) := do
  let (v,p) := getVarint64 buf pos
  let v ← okOr v msg
  pure (v,p)

theorem putVarint64_length (v : UInt64) :
    1 ≤ (putVarint64 v).length ∧ (putVarint64 v).length ≤ 10 :=
  ⟨Leb128.put_length_pos 9 v.toNat,Leb128.put_length_le 10 v.toNat⟩

theorem putVarint64_code (v : UInt64) : Leb128.Code (putVarint64 v) v.toNat :=
  Leb128.put_code (Nat.lt_of_lt_of_le v.toNat_lt (by decide)) (by decide)

theorem getVarint64_code {buf code post : Bytes} {p n : Nat} (hc : Leb128.Code code n)
    (hl : code.length ≤ 10) (hp : buf.drop p = code ++ post) :
    getVarint64 buf p = (some (UInt64.ofNat n),p+code.length) := by
  have hn : UInt64.ofNat (n % 2^64) = UInt64.ofNat n := UInt64.ofNat_mod_size
  rw [getVarint64,Leb128.get_code hc hp (by decide) (by omega) hl]
  simp only [Nat.pow_zero,Nat.mul_one,Nat.zero_add,hn]

theorem getVarint64_sound {buf : Bytes} {p q : Nat} {v : UInt64}
    (h : getVarint64 buf p = (some v,q)) : ∃ code n, Leb128.Code code n ∧ code.length ≤ 10 ∧
      buf.drop p = code ++ buf.drop q ∧ q = p+code.length ∧ v.toNat = n % 2^64 := by
  rw [getVarint64] at h
  split at h
  · rename_i r u hg
    obtain ⟨code,n,hc,hd,hq,hlen,hv⟩ := Leb128.get_sound hg (by decide) (by decide)
    rw [Prod.mk.injEq,Option.some.injEq] at h
    obtain ⟨rfl,rfl⟩ := h
    refine ⟨code,n,hc,by omega,hd,hq,?_⟩
    rw [hv,Nat.pow_zero,Nat.mul_one,Nat.zero_add,toNat_ofNat64 (Nat.mod_lt _ (by decide))]
  · simp at h

theorem getVarint64_put (pre tail : Bytes) (v : UInt64) :
    getVarint64 (pre ++ putVarint64 v ++ tail) pre.length =
      (some v,pre.length + (putVarint64 v).length) := by
  have hp : (pre ++ putVarint64 v ++ tail).drop pre.length = putVarint64 v ++ tail := by simp
  rw [getVarint64_code (putVarint64_code v) (putVarint64_length v).2 hp,UInt64.ofNat_toNat]

theorem getVarint32_put (pre tail : Bytes) (v : UInt32) :
    getVarint32 (pre ++ putVarint32 v ++ tail) pre.length =
      (some v,pre.length + (putVarint32 v).length) := by
  have hv := v.toNat_lt
  have hn : ¬ v.toUInt64.toNat > 0xffffffff := by
    rw [UInt32.toNat_toUInt64]
    omega
  simp only [getVarint32,putVarint32,getVarint64_put,hn,↓reduceIte]
  simp

theorem readVarint32_at {d p t : Bytes} {n : Nat} (v : UInt32) (msg : String)
    (hd : d = p ++ putVarint32 v ++ t) (hp : n = p.length) :
    readVarint32 d n msg = .ok (v,n + (putVarint32 v).length) := by
  subst hd hp
  simp only [readVarint32,getVarint32_put]
  rfl

theorem readVarint64_at {d p t : Bytes} {n : Nat} (v : UInt64) (msg : String)
    (hd : d = p ++ putVarint64 v ++ t) (hp : n = p.length) :
    readVarint64 d n msg = .ok (v,n + (putVarint64 v).length) := by
  subst hd hp
  simp only [readVarint64,getVarint64_put]
  rfl

/-- The codes `get_varint32` takes: at most ten groups, whose value in a 64-bit word is below
2^32. They need not be the shortest. -/
def Varint32 (code : Bytes) (n : Nat) : Prop :=
  n < 2^32 ∧ code.length ≤ 10 ∧ ∃ v, Leb128.Code code v ∧ v % 2^64 = n

theorem Varint32.length_pos {code : Bytes} {n : Nat} (h : Varint32 code n) :
    1 ≤ code.length := by
  obtain ⟨-,-,v,hc,-⟩ := h
  exact hc.length_pos

theorem putVarint32_varint {n : Nat} (h : n < 2^32) :
    Varint32 (putVarint32 (UInt32.ofNat n)) n := by
  refine ⟨h,(putVarint64_length _).2,n,?_,Nat.mod_eq_of_lt (by omega)⟩
  have hc := putVarint64_code (UInt32.ofNat n).toUInt64
  rwa [UInt32.toNat_toUInt64,toNat_ofNat32 h] at hc

theorem readVarint32_code {d code post : Bytes} {p n : Nat} (hc : Varint32 code n)
    (hp : d.drop p = code ++ post) (msg : String) :
    readVarint32 d p msg = .ok (UInt32.ofNat n,p+code.length) := by
  obtain ⟨hn,hl,v,hc,hv⟩ := hc
  have hv64 : (UInt64.ofNat v).toNat = n := by rw [UInt64.toNat_ofNat',hv]
  have hsmall : ¬ (UInt64.ofNat v).toNat > 0xffffffff := by omega
  have hval : (UInt64.ofNat v).toUInt32 = UInt32.ofNat n := by
    apply UInt32.toNat_inj.mp
    rw [UInt64.toNat_toUInt32,hv64,toNat_ofNat32 hn]
    exact Nat.mod_eq_of_lt hn
  simp only [readVarint32,getVarint32,getVarint64_code hc hl hp,hsmall,↓reduceIte,hval,okOr,
    ok_bind,pure_eq_ok]

theorem readVarint32_sound {d : Bytes} {p q : Nat} {msg : String} {v : UInt32}
    (h : readVarint32 d p msg = .ok (v,q)) : ∃ code, Varint32 code v.toNat ∧
      d.drop p = code ++ d.drop q ∧ q = p+code.length := by
  rw [readVarint32,getVarint32] at h
  split at h
  rename_i hg
  split at hg
  · rename_i u r hu
    split at hg
    · obtain ⟨rfl,rfl⟩ := Prod.mk.inj hg
      simp [okOr] at h
    · rename_i hle
      obtain ⟨rfl,rfl⟩ := Prod.mk.inj hg
      obtain ⟨code,n,hc,hl,hd,hq,hn⟩ := getVarint64_sound hu
      obtain ⟨rfl,rfl⟩ : u.toUInt32 = v ∧ r = q := by simpa [okOr] using h
      have hu32 : u.toUInt32.toNat = u.toNat := by
        rw [UInt64.toNat_toUInt32]
        exact Nat.mod_eq_of_lt (by omega)
      exact ⟨code,⟨u.toUInt32.toNat_lt,hl,n,hc,by rw [hu32,hn]⟩,hd,hq⟩
  · obtain ⟨rfl,rfl⟩ := Prod.mk.inj hg
    simp [okOr] at h

theorem length_of_code {d code : Bytes} {p q n : Nat} (hc : Leb128.Code code n)
    (hd : d.drop p = code ++ d.drop q) (hq : q = p+code.length) : p < q ∧ q ≤ d.length := by
  have hpos := hc.length_pos
  have hl := congrArg List.length hd
  simp only [List.length_append,List.length_drop] at hl
  omega

theorem readVarint32_moves {d : Bytes} {p q : Nat} {msg : String} {v : UInt32}
    (h : readVarint32 d p msg = .ok (v,q)) : p < q ∧ q ≤ d.length := by
  obtain ⟨code,⟨-,-,n,hc,-⟩,hd,hq⟩ := readVarint32_sound h
  exact length_of_code hc hd hq

theorem getVarint64_moves {d : Bytes} {p q : Nat} {v : UInt64}
    (h : getVarint64 d p = (some v,q)) : p < q ∧ q ≤ d.length := by
  obtain ⟨code,n,hc,-,hd,hq,-⟩ := getVarint64_sound h
  exact length_of_code hc hd hq

theorem readVarint64_moves {d : Bytes} {p q : Nat} {msg : String} {v : UInt64}
    (h : readVarint64 d p msg = .ok (v,q)) : p < q ∧ q ≤ d.length := by
  rw [readVarint64] at h
  split at h
  rename_i o r hg
  obtain ⟨u,hu,hr⟩ := bind_eq_ok h
  obtain ⟨rfl,rfl⟩ : u = v ∧ r = q := by simpa using hr
  exact getVarint64_moves (okOr_eq_ok hu ▸ hg)

theorem readVarint32_returns (d : Bytes) (p : Nat) (msg : String) :
    Returns (readVarint32 d p msg) :=
  (okOr_returns _ msg).bind (fun _ _ => .ok _)

theorem readVarint64_returns (d : Bytes) (p : Nat) (msg : String) :
    Returns (readVarint64 d p msg) :=
  (okOr_returns _ msg).bind (fun _ _ => .ok _)

end SstCompactor
