import SstCompactor.Format.Parser
import SstCompactor.Format.IndexExact

set_option autoImplicit false

namespace SstCompactor

/-- The codes `get_varint64` takes: at most ten groups, their value taken in a 64-bit word. -/
def Varint64 (code : Bytes) (v : UInt64) : Prop :=
  code.length ≤ 10 ∧ ∃ n, Leb128.Code code n ∧ v = UInt64.ofNat n

theorem Varint64.length_pos {code : Bytes} {v : UInt64} (h : Varint64 code v) :
    1 ≤ code.length := by
  obtain ⟨-,n,hc,-⟩ := h
  exact hc.length_pos

theorem getVarint64_iff {d : Bytes} {p q : Nat} {v : UInt64} :
    getVarint64 d p = (some v,q) ↔
      ∃ code, Varint64 code v ∧ d.drop p = code ++ d.drop q ∧ q = p+code.length := by
  constructor
  · intro h
    obtain ⟨code,n,hc,hl,hd,hq,hv⟩ := getVarint64_sound h
    refine ⟨code,⟨hl,n,hc,UInt64.toNat_inj.mp ?_⟩,hd,hq⟩
    rw [hv,UInt64.toNat_ofNat']
  · rintro ⟨code,⟨hl,n,hc,rfl⟩,hd,rfl⟩
    exact getVarint64_code hc hl hd

theorem Varint64.get {d code post : Bytes} {p : Nat} {v : UInt64} (hc : Varint64 code v)
    (hd : d.drop p = code ++ post) : getVarint64 d p = (some v,p+code.length) := by
  obtain ⟨hl,n,hc,rfl⟩ := hc
  exact getVarint64_code hc hl hd

theorem readVarint64_iff {d : Bytes} {p q : Nat} {msg : String} {v : UInt64} :
    readVarint64 d p msg = .ok (v,q) ↔
      ∃ code, Varint64 code v ∧ d.drop p = code ++ d.drop q ∧ q = p+code.length := by
  rw [← getVarint64_iff,readVarint64]
  cases getVarint64 d p with
  | mk o r => cases o <;> simp [okOr]

theorem readVarint64_code {d code post : Bytes} {p : Nat} {v : UInt64} (hc : Varint64 code v)
    (hd : d.drop p = code ++ post) (msg : String) :
    readVarint64 d p msg = .ok (v,p+code.length) :=
  readVarint64_iff.mpr ⟨code,hc,by rw [drop_add_length hd,hd],rfl⟩

structure Follows (prev : BlockHandle) (d : Int64) (handle : BlockHandle) : Prop where
  offset : handle.offset.toNat = prev.offset.toNat+prev.size.toNat+5
  size : handle.size.toInt64.toInt = prev.size.toInt64.toInt+d.toInt

theorem toInt64_inj {u v : UInt64} (h : u.toInt64.toInt = v.toInt64.toInt) : u = v := by
  have hu := toInt_toInt64 u
  have hv := toInt_toInt64 v
  have hu' := u.toNat_lt
  have hv' := v.toNat_lt
  apply UInt64.toNat_inj.mp
  split at hu <;> split at hv <;> omega

theorem delta_handle_iff {prev handle : BlockHandle} {d : Int64} :
    (IndexValue.delta prev d).handle = .ok handle ↔ Follows prev d handle := by
  have holt := handle.offset.toNat_lt
  have hint := toInt_toInt64 handle.size
  have hslt := handle.size.toNat_lt
  constructor
  · intro h
    obtain ⟨size,hs,h⟩ := bind_eq_ok h
    obtain ⟨start,h₁,h⟩ := bind_eq_ok h
    obtain ⟨offset,h₂,h⟩ := bind_eq_ok h
    rcases checkedAddI64_cases prev.size d with ⟨-,-,v,hv,hval⟩ | ⟨-,hov⟩
    · obtain rfl := Except.ok.inj (hs.symm.trans hv)
      obtain rfl := Except.ok.inj h
      have hsum := checkedAdd_eq_ok h₁
      have hoff := checkedAdd_eq_ok h₂
      rw [checkedAdd] at h₂
      split at h₂
      · rename_i hlt
        refine ⟨?_,hval⟩
        rw [toNat_ofNat64 (by omega),hoff,hsum]
        rfl
      · contradiction
    · rw [hov] at hs
      contradiction
  · rintro ⟨ho,hs⟩
    rcases checkedAddI64_cases prev.size d with ⟨-,-,v,hv,hval⟩ | ⟨hno,-⟩
    · obtain rfl := toInt64_inj (hs.trans hval.symm)
      simp only [IndexValue.handle,hv,ok_bind,blockTrailerSize]
      rw [checkedAdd_of_lt (by omega),ok_bind,checkedAdd_of_lt (by omega),ok_bind,← ho,
        UInt64.ofNat_toNat]
      rfl
    · exfalso
      split at hint <;> omega

inductive HandleCode (prev : Option BlockHandle) : Bool → Bytes → BlockHandle → Prop where
  | whole {a b : Bytes} {offset size : UInt64} :
      Varint64 a offset → Varint64 b size → HandleCode prev true (a ++ b) ⟨offset,size⟩
  | delta {a : Bytes} {u : UInt64} {before handle : BlockHandle} :
      prev = some before → Varint64 a u → Follows before (unzigzag u) handle →
      HandleCode prev false a handle

/-- A record of an index block at the position `pos`, behind the key `last` and the handle `prev`.
The handle is written out at the restart points and where nothing of the key is shared. -/
inductive IndexRecord (restarts : List Nat) (last : Bytes) (prev : Option BlockHandle)
    (pos : Nat) : Bytes → Bytes × BlockHandle → Prop where
  | mk {a b keyDelta c : Bytes} {shared : Nat} {handle : BlockHandle} :
      Varint32 a shared → Varint32 b keyDelta.length → shared ≤ last.length →
      HandleCode prev (restarts.contains pos || shared = 0) c handle →
      IndexRecord restarts last prev pos (a ++ b ++ keyDelta ++ c)
        (last.take shared ++ keyDelta,handle)

inductive IndexDenotes (restarts : List Nat) :
    Bytes → Option BlockHandle → Nat → Bytes → List (Bytes × BlockHandle) → Prop where
  | nil {last : Bytes} {prev : Option BlockHandle} {pos : Nat} :
      IndexDenotes restarts last prev pos [] []
  | cons {last record rest : Bytes} {prev : Option BlockHandle} {pos : Nat}
      {e : Bytes × BlockHandle} {es : List (Bytes × BlockHandle)} :
      IndexRecord restarts last prev pos record e →
      IndexDenotes restarts e.1 (some e.2) (pos+record.length) rest es →
      IndexDenotes restarts last prev pos (record ++ rest) (e :: es)

theorem HandleCode.length_pos {prev : Option BlockHandle} {full : Bool} {code : Bytes}
    {handle : BlockHandle} (h : HandleCode prev full code handle) : 1 ≤ code.length := by
  cases h with
  | whole ha hb =>
    have := ha.length_pos
    rw [List.length_append]
    omega
  | delta _ ha _ => exact ha.length_pos

theorem IndexRecord.length_pos {restarts : List Nat} {last record : Bytes}
    {prev : Option BlockHandle} {pos : Nat} {e : Bytes × BlockHandle}
    (h : IndexRecord restarts last prev pos record e) : 3 ≤ record.length := by
  obtain ⟨ha,hb,-,hc⟩ := h
  have h₁ := ha.length_pos
  have h₂ := hb.length_pos
  have h₃ := hc.length_pos
  simp only [List.length_append]
  omega

theorem getVarsigned64_code {d : Bytes} {p q : Nat} {v : Int64}
    (h : getVarsigned64 d p = (some v,q)) : ∃ code u, Varint64 code u ∧ unzigzag u = v ∧
      d.drop p = code ++ d.drop q ∧ q = p+code.length := by
  rw [getVarsigned64_eq] at h
  obtain ⟨hv,rfl⟩ := Prod.mk.inj h
  obtain ⟨u,hu,hz⟩ := Option.map_eq_some_iff.mp hv
  obtain ⟨code,hc,hd,hq⟩ := getVarint64_iff.mp (Prod.ext hu rfl : getVarint64 d p = (some u,_))
  exact ⟨code,u,hc,hz,hd,hq⟩

theorem readHandle_sound {data : Bytes} {full : Bool} {prev : Option BlockHandle}
    {p q : Nat} {handle : BlockHandle} (h : readHandle data full prev p = .ok (handle,q)) :
    ∃ code, HandleCode prev full code handle ∧ data.drop p = code ++ data.drop q ∧
      q = p+code.length := by
  rw [readHandle_eq] at h
  obtain ⟨⟨value,r⟩,hv,h⟩ := bind_eq_ok h
  obtain ⟨handle',hh,h⟩ := bind_eq_ok h
  obtain ⟨rfl,rfl⟩ : handle' = handle ∧ r = q := by simpa using h
  cases full with
  | true =>
    obtain ⟨⟨offset,p₁⟩,h₁,hv⟩ := bind_eq_ok hv
    obtain ⟨⟨size,p₂⟩,h₂,hv⟩ := bind_eq_ok hv
    obtain ⟨rfl,rfl⟩ : .whole ⟨offset,size⟩ = value ∧ p₂ = r := by simpa using hv
    obtain ⟨a,ha,hda,rfl⟩ := readVarint64_iff.mp h₁
    obtain ⟨b,hb,hdb,rfl⟩ := readVarint64_iff.mp h₂
    obtain rfl := Except.ok.inj hh
    refine ⟨a ++ b,.whole ha hb,?_,by rw [List.length_append,Nat.add_assoc]⟩
    rw [hda,hdb,List.append_assoc]
  | false =>
    obtain ⟨before,hb,hv⟩ := bind_eq_ok hv
    cases hg : getVarsigned64 data p with
    | mk o p₁ =>
      simp only [hg] at hv
      obtain ⟨d,hd,hv⟩ := bind_eq_ok hv
      obtain ⟨rfl,rfl⟩ : .delta before d = value ∧ p₁ = r := by simpa using hv
      rw [okOr_eq_ok hd] at hg
      obtain ⟨code,u,hc,rfl,hdrop,hq⟩ := getVarsigned64_code hg
      exact ⟨code,.delta (okOr_eq_ok hb) hc (delta_handle_iff.mp hh),hdrop,hq⟩

theorem readHandle_complete {data code post : Bytes} {full : Bool} {prev : Option BlockHandle}
    {p : Nat} {handle : BlockHandle} (h : HandleCode prev full code handle)
    (hd : data.drop p = code ++ post) :
    readHandle data full prev p = .ok (handle,p+code.length) := by
  rw [readHandle_eq]
  cases h with
  | @whole a b offset size ha hb =>
    rw [List.append_assoc] at hd
    simp only [readIndexValue,↓reduceIte,readVarint64_code ha hd,ok_bind,
      readVarint64_code hb (drop_add_length hd),pure_eq_ok,IndexValue.handle,
      List.length_append,Nat.add_assoc]
  | @delta _ u before _ hp ha hf =>
    have hg : getVarsigned64 data p = (some (unzigzag u),p+code.length) := by
      rw [getVarsigned64_eq,ha.get hd]
      rfl
    simp only [readIndexValue,Bool.false_eq_true,↓reduceIte,hp,okOr,ok_bind,hg,pure_eq_ok,
      delta_handle_iff.mpr hf]

section
variable {data : Bytes} {restarts : List Nat}

theorem shared_zero (shared : UInt32) :
    (!decide (shared ≠ 0)) = decide (shared.toNat = 0) := by
  have h : shared = 0 ↔ shared.toNat = 0 := (UInt32.toNat_inj (b:=0)).symm
  by_cases h0 : shared.toNat = 0 <;> simp [h,h0]

theorem readIndexEntry_sound {s s' : Bytes × Option BlockHandle} {e : Bytes × BlockHandle}
    {pos q : Nat} (h : readIndexEntry data restarts s pos = .ok (e,s',q)) :
    s' = (e.1,some e.2) ∧ q ≤ data.length ∧ ∃ record, IndexRecord restarts s.1 s.2 pos record e ∧
      data.drop pos = record ++ data.drop q ∧ q = pos+record.length := by
  obtain ⟨⟨shared,p₁⟩,hs,h⟩ := bind_eq_ok h
  obtain ⟨⟨unshared,p₂⟩,hu,h⟩ := bind_eq_ok h
  simp only at h
  split at h
  · contradiction
  · rename_i hle
    obtain ⟨stop,hstop,h⟩ := bind_eq_ok h
    obtain ⟨keyDelta,hk,h⟩ := bind_eq_ok h
    obtain ⟨⟨handle,fin⟩,hh,h⟩ := bind_eq_ok h
    simp only [pure_eq_ok,Except.ok.injEq,Prod.mk.injEq] at h
    obtain ⟨rfl,rfl,rfl⟩ := h
    obtain ⟨a,ha,hda,rfl⟩ := readVarint32_sound hs
    obtain ⟨b,hb,hdb,rfl⟩ := readVarint32_sound hu
    obtain ⟨hdk,hks,hkl⟩ := drop_of_getRange (okOr_eq_ok hk)
    obtain ⟨c,hc,hdc,hfin⟩ := readHandle_sound hh
    have hul : keyDelta.length = unshared.toNat := by
      have := checkedAdd_eq_ok hstop
      omega
    rw [shared_zero] at hc
    refine ⟨rfl,?_,_,.mk ha (hul ▸ hb) (Nat.not_lt.mp hle) hc,?_,?_⟩
    · have := hc.length_pos
      have hlen := congrArg List.length hdc
      simp only [List.length_append,List.length_drop] at hlen
      omega
    · rw [hda,hdb,hdk,hdc]
      simp only [List.append_assoc]
    · simp only [List.length_append]
      omega

theorem readIndexEntry_moves (s : Bytes × Option BlockHandle) (pos : Nat)
    (e : Bytes × BlockHandle) (s' : Bytes × Option BlockHandle) (q : Nat)
    (h : readIndexEntry data restarts s pos = .ok (e,s',q)) : pos < q ∧ q ≤ data.length := by
  obtain ⟨-,hle,record,hr,-,hq⟩ := readIndexEntry_sound h
  have := hr.length_pos
  omega

theorem readIndexEntry_complete {last record rest : Bytes} {prev : Option BlockHandle}
    {e : Bytes × BlockHandle} {pos : Nat} (h : IndexRecord restarts last prev pos record e)
    (hl : data.length < 2^63) (hd : data.drop pos = record ++ rest) :
    readIndexEntry data restarts (last,prev) pos =
      .ok (e,(e.1,some e.2),pos+record.length) := by
  have hlen := h.length_pos
  have hpos : pos ≤ data.length := by
    by_contra hlt
    rw [List.drop_eq_nil_of_le (by omega)] at hd
    have := congrArg List.length hd
    simp only [List.length_nil,List.length_append] at this
    omega
  obtain ⟨ha,hb,hs,hc⟩ := h
  rename_i a b keyDelta c shared handle
  simp only [List.append_assoc] at hd
  have h₁ := length_of_drop hd hpos
  have hd₂ := drop_add_length hd
  have hd₃ := drop_add_length hd₂
  have hd₄ := drop_add_length hd₃
  simp only [List.length_append] at h₁
  have hn : ¬ shared > last.length := Nat.not_lt.mpr hs
  have hzero := shared_zero (UInt32.ofNat shared)
  rw [toNat_ofNat32 ha.1] at hzero
  simp only [readIndexEntry,readVarint32_code ha hd,ok_bind,readVarint32_code hb hd₂,
    toNat_ofNat32 ha.1,toNat_ofNat32 hb.1,hn,↓reduceIte,pure_eq_ok]
  rw [checkedAdd_of_lt (by omega),ok_bind,getRange_of_drop hd₃ (by omega) rfl]
  simp only [okOr,ok_bind,hzero,readHandle_complete hc hd₄]
  simp only [List.length_append,Nat.add_assoc]

theorem IndexDenotes.path {last bytes q : Bytes} {prev : Option BlockHandle} {p : Nat}
    {es : List (Bytes × BlockHandle)} (h : IndexDenotes restarts last prev p bytes es)
    (hl : data.length < 2^63) (hd : data.drop p = bytes ++ q) :
    ∃ fin, Cursor.Path (readIndexEntry data restarts) (last,prev) p es fin (p+bytes.length) := by
  induction h with
  | nil => exact ⟨_,.nil⟩
  | @cons last record tail prev pos e es hr _ ih =>
    have hpos := hr.length_pos
    rw [List.append_assoc] at hd
    have hread := readIndexEntry_complete hr hl hd
    obtain ⟨fin,hrest⟩ := ih (drop_add_length hd)
    refine ⟨fin,.cons hread (by omega) ?_⟩
    rwa [List.length_append,← Nat.add_assoc]

theorem indexDenotes_of_path {s fin : Bytes × Option BlockHandle}
    {es : List (Bytes × BlockHandle)} {pos q : Nat}
    (h : Cursor.Path (readIndexEntry data restarts) s pos es fin q) :
    ∃ bytes, IndexDenotes restarts s.1 s.2 pos bytes es ∧ data.drop pos = bytes ++ data.drop q ∧
      q = pos+bytes.length := by
  induction h with
  | nil => exact ⟨[],.nil,rfl,rfl⟩
  | cons hs _ _ ih =>
    obtain ⟨rfl,-,record,hr,hd,hq⟩ := readIndexEntry_sound hs
    obtain ⟨bytes,hb,hd',hq'⟩ := ih
    refine ⟨record ++ bytes,.cons hr (hq ▸ hb),?_,?_⟩
    · rw [hd,hd',List.append_assoc]
    · rw [List.length_append]
      omega

variable (data restarts) in
theorem indexWalk_ends : ∃ fin p, Cursor.Path (readIndexEntry data restarts) ([],none) 0
      (Cursor.walk (readIndexEntry data restarts) data.length .outOfFuel data.length ([],none) 0).1
      fin p ∧ p ≤ data.length ∧
    (p = data.length ∧ (Cursor.walk (readIndexEntry data restarts) data.length .outOfFuel
        data.length ([],none) 0).2 = .ok () ∨
      p < data.length ∧ ∃ e, readIndexEntry data restarts fin p = .error e ∧
        (Cursor.walk (readIndexEntry data restarts) data.length .outOfFuel data.length
          ([],none) 0).2 = .error e) :=
  Cursor.walk_ends Fault.outOfFuel readIndexEntry_moves (Nat.zero_le _) (Nat.sub_le _ _)

theorem indexWalk_iff (hl : data.length < 2^63) {es : List (Bytes × BlockHandle)} :
    Cursor.walk (readIndexEntry data restarts) data.length .outOfFuel data.length ([],none) 0 =
      (es,.ok ()) ↔ IndexDenotes restarts [] none 0 data es := by
  constructor
  · intro h
    obtain ⟨fin,p,hpath,-,hend⟩ := indexWalk_ends data restarts
    rw [h] at hpath hend
    rcases hend with ⟨rfl,-⟩ | ⟨-,e,-,he⟩
    · obtain ⟨bytes,hb,hd,hlen⟩ := indexDenotes_of_path hpath
      rw [List.drop_zero,List.drop_length,List.append_nil] at hd
      rwa [← hd] at hb
    · contradiction
  · intro h
    obtain ⟨fin,hpath⟩ := h.path (q:=[]) hl (by rw [List.drop_zero,List.append_nil])
    rw [Nat.zero_add] at hpath
    exact Cursor.walk_path_end hpath (Nat.sub_le _ _)

end

def HandlesIn (contents : Bytes) (es : List (Bytes × BlockHandle)) : Prop :=
  ∃ data restarts, Splits contents data restarts ∧
    IndexDenotes (restarts.map UInt32.toNat) [] none 0 data es

theorem Splits.length_le {bytes data : Bytes} {restarts : List UInt32}
    (h : Splits bytes data restarts) : data.length ≤ bytes.length := by
  have hlen := blockImage_length data restarts
  rw [← h.image] at hlen
  omega

theorem handlesIn_iff {contents : Bytes} (hl : contents.length < 2^63)
    {es : List (Bytes × BlockHandle)} :
    HandlesIn contents es ↔ ∃ block, parseBlock contents = .ok block ∧
      forEachIndexEntry block = (es,.ok ()) := by
  constructor
  · rintro ⟨data,restarts,hs,hd⟩
    obtain ⟨hp,hdata⟩ := hs.parse
    refine ⟨_,hp,?_⟩
    rw [forEachIndexEntry,hdata]
    exact (indexWalk_iff (Nat.lt_of_le_of_lt hs.length_le hl)).mpr hd
  · rintro ⟨block,hp,he⟩
    obtain ⟨data,hs,hdata⟩ := parseBlock_splits hp
    rw [forEachIndexEntry,hdata] at he
    exact ⟨data,block.restarts,hs,(indexWalk_iff (Nat.lt_of_le_of_lt hs.length_le hl)).mp he⟩

structure ReadHandles (restarts : List Nat) (data : Bytes)
    (r : List (Bytes × BlockHandle) × Exec Unit) : Prop where
  accepts : ∀ es, r = (es,.ok ()) ↔ IndexDenotes restarts [] none 0 data es
  longest : ∃ head, head <+: data ∧ IndexDenotes restarts [] none 0 head r.1 ∧
    ∀ head' es', head' <+: data → IndexDenotes restarts [] none 0 head' es' → head' <+: head

theorem IndexDenotes.path_of_prefix {restarts : List Nat} {data head : Bytes}
    {es : List (Bytes × BlockHandle)} (h : IndexDenotes restarts [] none 0 head es)
    (hl : data.length < 2^63) (hp : head <+: data) :
    ∃ fin, Cursor.Path (readIndexEntry data restarts) ([],none) 0 es fin head.length := by
  obtain ⟨rest,rfl⟩ := hp
  obtain ⟨fin,hpath⟩ := h.path hl (List.drop_zero)
  exact ⟨fin,by rwa [Nat.zero_add] at hpath⟩

/-- An index block is accepted when it is in the grammar; of any other the callback has seen the
longest front part that is. -/
theorem indexParser_exact (v : ByteVec) {block : ParsedBlock}
    (h : parseBlock v.bytes = .ok block) : ∃ data, Splits v.bytes data block.restarts ∧
      ReadHandles (block.restarts.map UInt32.toNat) data (forEachIndexEntry block) := by
  obtain ⟨data,hs,hdata⟩ := parseBlock_splits h
  have hl : data.length < 2^63 := Nat.lt_of_le_of_lt hs.length_le v.length_lt
  refine ⟨data,hs,?_⟩
  rw [forEachIndexEntry,hdata]
  simp only
  refine ⟨fun es => indexWalk_iff hl,?_⟩
  obtain ⟨fin,p,hpath,hp,hend⟩ := indexWalk_ends data (block.restarts.map UInt32.toNat)
  obtain ⟨head,hden,hdrop,hlen⟩ := indexDenotes_of_path hpath
  rw [List.drop_zero] at hdrop
  rw [Nat.zero_add] at hlen
  have hhead : head <+: data := ⟨_,hdrop.symm⟩
  refine ⟨head,hhead,hden,fun head' es' hp' hes' => ?_⟩
  rcases hend with ⟨rfl,-⟩ | ⟨-,e,he,-⟩
  · rwa [hhead.eq_of_length hlen.symm]
  · -- No path from the start goes beyond the failing entry.
    obtain ⟨fin',hpath'⟩ := hes'.path_of_prefix hl hp'
    have hle := hpath'.le_of_error hpath he
    exact List.prefix_of_prefix_length_le hp' hhead (by omega)

theorem indexParser_two : ∃ data, Splits shrunkToNone.bytes data [0] ∧
    ReadHandles [0] data (forEachIndexEntry ⟨shrunkToNone.bytes,[0]⟩) ∧
    IndexDenotes [0] [] none 0 data [([97],⟨0,1⟩),([97],⟨6,0⟩)] := by
  obtain ⟨data,hs,hread⟩ := indexParser_exact shrunkToNone
    (show parseBlock shrunkToNone.bytes = .ok ⟨shrunkToNone.bytes,[0]⟩ by decide)
  exact ⟨data,hs,hread,(hread.accepts _).mp (by decide)⟩

end SstCompactor
