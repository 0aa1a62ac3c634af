import SstCompactor.Format.Block

set_option autoImplicit false

namespace SstCompactor

inductive Record (last : Bytes) : Bytes → Entry → Prop where
  | mk {a b c keyDelta value : Bytes} {shared : Nat} :
      Varint32 a shared → Varint32 b keyDelta.length → Varint32 c value.length →
      shared ≤ last.length →
      Record last (a ++ b ++ c ++ keyDelta ++ value) (last.take shared ++ keyDelta,value)

inductive Denotes : Bytes → Bytes → List Entry → Prop where
  | nil {last : Bytes} : Denotes last [] []
  | cons {last record rest : Bytes} {e : Entry} {es : List Entry} :
      Record last record e → Denotes e.1 rest es → Denotes last (record ++ rest) (e :: es)

theorem Record.length_pos {last record : Bytes} {e : Entry} (h : Record last record e) :
    3 ≤ record.length := by
  obtain ⟨ha,hb,hc,-⟩ := h
  have h₁ := ha.length_pos
  have h₂ := hb.length_pos
  have h₃ := hc.length_pos
  simp only [List.length_append]
  omega

section
variable {data last : Bytes} (hl : data.length < 2^63)
include hl

theorem readEntry_complete {record rest : Bytes} {e : Entry} {pos : Nat}
    (h : Record last record e) (hd : data.drop pos = record ++ rest) :
    readEntry data last pos = .ok (e,e.1,pos+record.length) := by
  have hlen := h.length_pos
  have hpos : pos ≤ data.length := by
    by_contra hlt
    rw [List.drop_eq_nil_of_le (by omega)] at hd
    have := congrArg List.length hd
    simp only [List.length_nil,List.length_append] at this
    omega
  obtain ⟨ha,hb,hc,hs⟩ := h
  rename_i a b c keyDelta value shared
  simp only [List.append_assoc] at hd
  have h₁ := length_of_drop hd hpos
  have hd₂ := drop_add_length hd
  have hd₃ := drop_add_length hd₂
  have hd₄ := drop_add_length hd₃
  have hd₅ := drop_add_length hd₄
  simp only [List.length_append] at h₁
  have hn : ¬ shared > last.length := Nat.not_lt.mpr hs
  simp only [readEntry,readVarint32_code ha hd,ok_bind,readVarint32_code hb hd₂,
    readVarint32_code hc hd₃,toNat_ofNat32 ha.1,toNat_ofNat32 hb.1,toNat_ofNat32 hc.1,hn,
    ↓reduceIte,pure_eq_ok]
  rw [checkedAdd_of_lt (by omega),ok_bind,getRange_of_drop hd₄ (by omega) rfl]
  simp only [okOr,ok_bind]
  rw [checkedAdd_of_lt (by omega),ok_bind,getRange_of_drop hd₅ (by omega) rfl]
  simp only [ok_bind,List.length_append,Nat.add_assoc]

end

theorem readEntry_sound {data last key : Bytes} {e : Entry} {pos q : Nat}
    (h : readEntry data last pos = .ok (e,key,q)) : key = e.1 ∧ q ≤ data.length ∧
      ∃ record, Record last record e ∧ data.drop pos = record ++ data.drop q ∧
        q = pos+record.length := by
  obtain ⟨⟨shared,p₁⟩,hs,h⟩ := bind_eq_ok h
  obtain ⟨⟨unshared,p₂⟩,hu,h⟩ := bind_eq_ok h
  obtain ⟨⟨valueLen,p₃⟩,hv,h⟩ := bind_eq_ok h
  simp only at h
  split at h
  · contradiction
  · rename_i hle
    obtain ⟨stop,hstop,h⟩ := bind_eq_ok h
    obtain ⟨keyDelta,hk,h⟩ := bind_eq_ok h
    obtain ⟨fin,hfin,h⟩ := bind_eq_ok h
    obtain ⟨value,hval,h⟩ := bind_eq_ok h
    simp only [pure_eq_ok,Except.ok.injEq,Prod.mk.injEq] at h
    obtain ⟨rfl,rfl,rfl⟩ := h
    obtain ⟨a,ha,hda,rfl⟩ := readVarint32_sound hs
    obtain ⟨b,hb,hdb,rfl⟩ := readVarint32_sound hu
    obtain ⟨c,hc,hdc,rfl⟩ := readVarint32_sound hv
    obtain ⟨hdk,hks,-⟩ := drop_of_getRange (okOr_eq_ok hk)
    obtain ⟨hdv,hvs,hfl⟩ := drop_of_getRange (okOr_eq_ok hval)
    have hul : keyDelta.length = unshared.toNat := by
      have := checkedAdd_eq_ok hstop
      omega
    have hvl : value.length = valueLen.toNat := by
      have := checkedAdd_eq_ok hfin
      omega
    refine ⟨rfl,hfl,_,.mk ha (hul ▸ hb) (hvl ▸ hc) (Nat.not_lt.mp hle),?_,?_⟩
    · rw [hda,hdb,hdc,hdk,hdv]
      simp only [List.append_assoc]
    · simp only [List.length_append]
      omega

theorem readEntry_returns {data last : Bytes} {pos : Nat} (hl : data.length < 2^63) :
    Returns (readEntry data last pos) := by
  refine (readVarint32_returns _ _ _).bind (fun ⟨shared,p₁⟩ hs => ?_)
  refine (readVarint32_returns _ _ _).bind (fun ⟨unshared,p₂⟩ hu => ?_)
  refine (readVarint32_returns _ _ _).bind (fun ⟨valueLen,p₃⟩ hv => ?_)
  have hp := (readVarint32_moves hv).2
  have hul := unshared.toNat_lt
  have hvl := valueLen.toNat_lt
  simp only
  split
  · exact .err _
  · rw [checkedAdd_of_lt (by omega),ok_bind]
    refine (okOr_returns _ _).bind (fun keyDelta hk => ?_)
    rw [checkedAdd_of_lt (by omega),ok_bind]
    exact (okOr_returns _ _).bind (fun value _ => .ok _)

theorem Denotes.path {data last bytes q : Bytes} {es : List Entry} {p : Nat}
    (h : Denotes last bytes es) (hl : data.length < 2^63) (hd : data.drop p = bytes ++ q) :
    Cursor.Path (readEntry data) last p es ((es.map Prod.fst).getLastD last)
      (p+bytes.length) := by
  induction h generalizing p with
  | nil => exact .nil
  | @cons last record tail e es hr _ ih =>
    have hpos := hr.length_pos
    rw [List.append_assoc] at hd
    refine .cons (readEntry_complete hl hr hd) (by omega) ?_
    rw [List.length_append,← Nat.add_assoc,List.map_cons,List.getLastD_cons]
    exact ih (drop_add_length hd)

theorem denotes_of_path {data last fin : Bytes} {es : List Entry} {pos q : Nat}
    (h : Cursor.Path (readEntry data) last pos es fin q) :
    ∃ bytes, Denotes last bytes es ∧ data.drop pos = bytes ++ data.drop q ∧
      q = pos+bytes.length := by
  induction h with
  | nil => exact ⟨[],.nil,rfl,rfl⟩
  | cons hs _ _ ih =>
    obtain ⟨rfl,-,record,hr,hd,hq⟩ := readEntry_sound hs
    obtain ⟨bytes,hb,hd',hq'⟩ := ih
    refine ⟨record ++ bytes,.cons hr hb,?_,?_⟩
    · rw [hd,hd',List.append_assoc]
    · rw [List.length_append]
      omega

end SstCompactor
