import SstCompactor.Exec

set_option autoImplicit false

namespace SstCompactor
open FixedWidth

inductive ValueType where
  | deletion | value | merge | singleDeletion | rangeDeletion | blobIndex
  | other : UInt8 → ValueType
  deriving DecidableEq, Repr

def ValueType.fromByte (b : UInt8) : ValueType :=
  if b = 0x0 then .deletion
  else if b = 0x1 then .value
  else if b = 0x2 then .merge
  else if b = 0x7 then .singleDeletion
  else if b = 0xF then .rangeDeletion
  else if b = 0x11 then .blobIndex
  else .other b

structure InternalKey where
  userKey : Bytes
  sequence : Nat
  valueType : ValueType
  deriving DecidableEq, Repr

def numInternalBytes : Nat := 8

def userKey (k : Bytes) : Bytes := k.take (k.length-numInternalBytes)

def packed (k : Bytes) : Nat := ofLe (k.drop (k.length-numInternalBytes))

def sequence (k : Bytes) : Nat := packed k >>> 8

def valueType (k : Bytes) : ValueType := .fromByte (UInt8.ofNat (packed k &&& 0xff))

def split (internalKey : Bytes) : Exec InternalKey :=
  if internalKey.length < numInternalBytes then
    .error (.err "internal key shorter than 8-byte seq/type suffix")
  else
    .ok ⟨userKey internalKey,sequence internalKey,valueType internalKey⟩

/-- Long enough to carry the suffix. -/
def WellFormed (k : Bytes) : Prop := 8 ≤ k.length

instance (k : Bytes) : Decidable (WellFormed k) := inferInstanceAs (Decidable (8 ≤ k.length))

def internalKeyOf (k : Bytes) : InternalKey := ⟨userKey k,sequence k,valueType k⟩

theorem split_ok {k : Bytes} (h : WellFormed k) : split k = .ok (internalKeyOf k) := by
  have hn : ¬ k.length < numInternalBytes := Nat.not_lt.mpr h
  simp only [split,hn,↓reduceIte,internalKeyOf]

theorem userKey_append (u s : Bytes) (hs : s.length = 8) : userKey (u ++ s) = u := by
  simp [userKey,numInternalBytes,hs]

theorem packed_append (u s : Bytes) (hs : s.length = 8) : packed (u ++ s) = ofLe s := by
  simp [packed,numInternalBytes,hs]

theorem suffix_length {k : Bytes} (h : WellFormed k) :
    (k.drop (k.length-numInternalBytes)).length = 8 := by
  simp only [WellFormed] at h
  simp only [List.length_drop,numInternalBytes]
  omega

theorem key_eq {k : Bytes} (h : WellFormed k) : k = userKey k ++ leBytes 8 (packed k) := by
  have hs : leBytes 8 (packed k) = k.drop (k.length-numInternalBytes) := by
    rw [packed,← suffix_length h]
    exact leBytes_ofLe _
  rw [hs,userKey,List.take_append_drop]

theorem key_ext {a b : Bytes} (ha : WellFormed a) (hb : WellFormed b)
    (hu : userKey a = userKey b) (hp : packed a = packed b) : a = b := by
  rw [key_eq ha,key_eq hb,hu,hp]

theorem sequence_eq (k : Bytes) : sequence k = packed k/256 := by
  simp [sequence,Nat.shiftRight_eq_div_pow]

/-- The deletion marks both the strategies and the reference compaction look for. -/
def ValueType.isTombstone : ValueType → Bool
  | .deletion | .singleDeletion => true
  | _ => false

end SstCompactor
