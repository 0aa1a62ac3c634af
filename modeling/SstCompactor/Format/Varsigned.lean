import SstCompactor.Format.BlockBuilder
import SstCompactor.Codec.ZigZag

set_option autoImplicit false

namespace SstCompactor
open FixedWidth

/-- The zigzag code of a signed number. -/
def zigzag (v : Int64) : UInt64 := ((v <<< 1) ^^^ (v >>> 63)).toUInt64

def unzigzag (u : UInt64) : Int64 := ((u >>> 1) ^^^ (0-(u &&& 1))).toInt64

theorem unzigzag_zigzag (v : Int64) : unzigzag (zigzag v) = v :=
  Int64.toBitVec_inj.mp (ZigZag.get_put v.toBitVec)

theorem zigzag_unzigzag (u : UInt64) : zigzag (unzigzag u) = u :=
  UInt64.toBitVec_inj.mp (ZigZag.put_get u.toBitVec)

theorem putVarsigned64_eq (v : Int64) : putVarsigned64 v = putVarint64 (zigzag v) := rfl

theorem getVarsigned64_eq (buf : Bytes) (pos : Nat) : getVarsigned64 buf pos =
    ((getVarint64 buf pos).1.map unzigzag,(getVarint64 buf pos).2) := by
  rw [getVarsigned64]
  cases getVarint64 buf pos with
  | mk v p => cases v <;> rfl

theorem getVarsigned64_moves {d : Bytes} {p q : Nat} {v : Int64}
    (h : getVarsigned64 d p = (some v,q)) : p < q ∧ q ≤ d.length := by
  rw [getVarsigned64_eq] at h
  obtain ⟨hv,rfl⟩ := Prod.mk.inj h
  obtain ⟨u,hu,-⟩ := Option.map_eq_some_iff.mp hv
  exact getVarint64_moves (Prod.ext hu rfl)

theorem getVarsigned64_put {d p t : Bytes} {n : Nat} (v : Int64)
    (hd : d = p ++ putVarsigned64 v ++ t) (hp : n = p.length) :
    getVarsigned64 d n = (some v,n+(putVarsigned64 v).length) := by
  subst hd hp
  rw [getVarsigned64_eq,putVarsigned64_eq,getVarint64_put]
  simp [unzigzag_zigzag]

/-- The reader finds a number behind whatever comes before it, moves past it whatever follows,
and stays where it is when the number is cut short. -/
structure InPlace {α : Type} (put : α → Bytes) (get : Bytes → Nat → Option α × Nat) : Prop where
  length : ∀ v, 1 ≤ (put v).length ∧ (put v).length ≤ 10
  read : ∀ v p s, get (p ++ put v ++ s) p.length = (some v,p.length+(put v).length)
  cut : ∀ v p c, c <+: put v → c ≠ put v → get (p ++ c) p.length = (none,p.length)

theorem varint64_inPlace : InPlace putVarint64 getVarint64 where
  length := putVarint64_length
  read := fun v p s => getVarint64_put p s v
  cut := by
    intro v p c hc hne
    have hlt : c.length < (putVarint64 v).length :=
      Nat.lt_of_le_of_ne hc.length_le (fun h => hne (hc.eq_of_length h))
    have hd : (p ++ c).drop p.length = (putVarint64 v).take c.length := by
      rw [List.drop_left]
      exact List.prefix_iff_eq_take.mp hc
    rw [getVarint64,Leb128.get_cut (putVarint64_code v) hlt hd (by decide) (by decide)]

theorem varint32_inPlace : InPlace putVarint32 getVarint32 where
  length := fun v => putVarint64_length v.toUInt64
  read := fun v p s => getVarint32_put p s v
  cut := by
    intro v p c hc hne
    rw [getVarint32,varint64_inPlace.cut v.toUInt64 p c hc hne]

theorem varsigned64_inPlace : InPlace putVarsigned64 getVarsigned64 where
  length := fun v => putVarint64_length (zigzag v)
  read := fun v p s => getVarsigned64_put v rfl rfl
  cut := by
    intro v p c hc hne
    rw [getVarsigned64_eq,varint64_inPlace.cut (zigzag v) p c hc hne]
    rfl

/-- Varints are read where they stand and refused when cut short, and every unsigned number is
the code of one signed number. -/
theorem varints_inPlace :
    InPlace putVarint64 getVarint64 ∧ InPlace putVarint32 getVarint32 ∧
    InPlace putVarsigned64 getVarsigned64 ∧
    ∀ (u : UInt64) (p s : Bytes), ∃ v, putVarsigned64 v = putVarint64 u ∧
      getVarsigned64 (p ++ putVarint64 u ++ s) p.length =
        (some v,p.length+(putVarint64 u).length) := by
  refine ⟨varint64_inPlace,varint32_inPlace,varsigned64_inPlace,fun u p s => ?_⟩
  have hu : putVarsigned64 (unzigzag u) = putVarint64 u := by
    rw [putVarsigned64_eq,zigzag_unzigzag]
  refine ⟨unzigzag u,hu,?_⟩
  rw [← hu]
  exact varsigned64_inPlace.read (unzigzag u) p s

end SstCompactor
