import SstCompactor.Format.BlockBuilder

set_option autoImplicit false

namespace SstCompactor
open FixedWidth

def strBytes (s : String) : Bytes := s.toUTF8.data.toList

def propertiesBlockName : String := "rocksdb.properties"
def indexBlockName : String := "rocksdb.index"

def keyIndexType : String := "rocksdb.block.based.table.index.type"
def keyNumEntries : String := "rocksdb.num.entries"
def keyRawKeySize : String := "rocksdb.raw.key.size"
def keyRawValueSize : String := "rocksdb.raw.value.size"
def keyDataSize : String := "rocksdb.data.size"
def keyIndexSize : String := "rocksdb.index.size"
def keyIndexKeyIsUserKey : String := "rocksdb.index.key.is.user.key"
def keyIndexValueIsDeltaEncoded : String := "rocksdb.index.value.is.delta.encoded"
def keyComparator : String := "rocksdb.comparator"
def keyColumnFamilyId : String := "rocksdb.column.family.id"
def keyColumnFamilyName : String := "rocksdb.column.family.name"
def keyExternalVersion : String := "rocksdb.external_sst_file.version"
def keyExternalGlobalSeqno : String := "rocksdb.external_sst_file.global_seqno"

def externalSstVersion : UInt32 := 2
def indexTypeBinarySearch : UInt32 := 0
def bytewiseComparatorName : String := "leveldb.BytewiseComparator"

structure PropertiesInput where
  numEntries : UInt64
  rawKeySize : UInt64
  rawValueSize : UInt64
  dataSize : UInt64
  indexSize : UInt64
  comparatorName : String
  columnFamilyId : UInt64
  columnFamilyName : String
  externalSstGlobalSeqno : Option UInt64

def sortByName {α : Type} (entries : List (String × α)) : List (String × α) :=
  entries.mergeSort (fun a b => compare (strBytes a.1) (strBytes b.1) != .gt)

def propertyEntries (props : PropertiesInput) : List (String × Bytes) :=
  [(keyIndexType,leBytes 4 indexTypeBinarySearch.toNat),
    (keyNumEntries,putVarint64 props.numEntries),
    (keyRawKeySize,putVarint64 props.rawKeySize),
    (keyRawValueSize,putVarint64 props.rawValueSize),
    (keyDataSize,putVarint64 props.dataSize),
    (keyIndexSize,putVarint64 props.indexSize),
    (keyIndexKeyIsUserKey,putVarint64 0),
    (keyIndexValueIsDeltaEncoded,putVarint64 1)] ++
  (if props.comparatorName.isEmpty then [] else
    [(keyComparator,strBytes props.comparatorName)]) ++
  [(keyColumnFamilyId,putVarint64 props.columnFamilyId)] ++
  (if props.columnFamilyName.isEmpty then [] else
    [(keyColumnFamilyName,strBytes props.columnFamilyName)]) ++
  (match props.externalSstGlobalSeqno with
    | some globalSeqno =>
      [(keyExternalVersion,leBytes 4 externalSstVersion.toNat),
        (keyExternalGlobalSeqno,leBytes 8 globalSeqno.toNat)]
    | none => [])

def buildNamedBlock (restartInterval : Nat) (entries : List (String × Bytes)) : Exec Bytes := do
  let builder ← BlockBuilder.new restartInterval
  let builder ← (entries.map (fun e => (strBytes e.1,e.2))).foldlM BlockBuilder.add builder
  pure builder.finish

def buildPropertiesBlock (props : PropertiesInput) : Exec Bytes :=
  buildNamedBlock (2^64-1) (sortByName (propertyEntries props))

def metaValue (handle : BlockHandle) : Bytes :=
  putVarint64 handle.offset ++ putVarint64 handle.size

def buildMetaindexBlock (entries : List (String × BlockHandle)) : Exec Bytes :=
  buildNamedBlock 1 ((sortByName entries).map (fun e => (e.1,metaValue e.2)))

theorem buildNamedBlock_ok {restartInterval : Nat} (hi : 1 ≤ restartInterval)
    (entries : List (String × Bytes)) :
    buildNamedBlock restartInterval entries = .ok (BlockBuilder.ofEntries restartInterval
      (entries.map (fun e => (strBytes e.1,e.2)))).finish := by
  have hnew : BlockBuilder.new restartInterval = .ok (BlockBuilder.empty restartInterval) := by
    simp [BlockBuilder.new,require,hi]
  rw [buildNamedBlock,hnew,ok_bind,(BlockBuilder.empty_ready hi).foldlM_add]
  rfl

def metaEntries (props index : BlockHandle) : List Entry :=
  [(strBytes indexBlockName,metaValue index),(strBytes propertiesBlockName,metaValue props)]

theorem buildMetaindexBlock_ok (props index : BlockHandle) :
    buildMetaindexBlock [(propertiesBlockName,props),(indexBlockName,index)] =
      .ok (BlockBuilder.ofEntries 1 (metaEntries props index)).finish := by
  have hsort : sortByName [(propertiesBlockName,props),(indexBlockName,index)] =
      [(indexBlockName,index),(propertiesBlockName,props)] := by
    have hc : (compare (strBytes propertiesBlockName) (strBytes indexBlockName) != .gt) =
        false := by decide
    simp [sortByName,List.mergeSort,hc]
  rw [buildMetaindexBlock,hsort,buildNamedBlock_ok (Nat.le_refl 1)]
  rfl

theorem metaValue_length (handle : BlockHandle) : (metaValue handle).length ≤ 20 := by
  have h₁ := (putVarint64_length handle.offset).2
  have h₂ := (putVarint64_length handle.size).2
  rw [metaValue,List.length_append]
  omega

theorem metaEntries_fit (props index : BlockHandle) : ∀ e ∈ metaEntries props index, Fits e := by
  have h := fun handle => Nat.lt_of_le_of_lt (metaValue_length handle) (by decide : 20 < 2^32)
  have hi : (strBytes indexBlockName).length < 2^32 := by decide
  have hp : (strBytes propertiesBlockName).length < 2^32 := by decide
  intro e he
  rcases List.mem_cons.mp he with rfl | he
  · exact ⟨hi,h index⟩
  · rw [List.mem_singleton.mp he]
    exact ⟨hp,h props⟩

theorem metaindex_length (props index : BlockHandle) :
    (BlockBuilder.ofEntries 1 (metaEntries props index)).finish.length < 150 := by
  have hlen := BlockBuilder.ofEntries_length_le 1 (metaEntries props index)
  have hi : (strBytes indexBlockName).length = 13 := by decide
  have hp : (strBytes propertiesBlockName).length = 18 := by decide
  have hvi := metaValue_length index
  have hvp := metaValue_length props
  simp only [metaEntries,totalBytes,List.map_cons,List.map_nil,List.sum_cons,List.sum_nil,
    List.length_cons,List.length_nil,hi,hp] at hlen ⊢
  omega

theorem totalBytes_le {es : List Entry} {b : Nat}
    (h : ∀ e ∈ es, e.1.length+e.2.length ≤ b) : totalBytes es ≤ es.length*b := by
  induction es with
  | nil => exact Nat.zero_le _
  | cons e es ih =>
    have he := h e (by simp)
    have hes := ih (fun x hx => h x (by simp [hx]))
    simp only [totalBytes,List.map_cons,List.sum_cons,List.length_cons,Nat.add_mul] at hes ⊢
    omega

def propertyNames : List String :=
  [keyIndexType,keyNumEntries,keyRawKeySize,keyRawValueSize,keyDataSize,keyIndexSize,
    keyIndexKeyIsUserKey,keyIndexValueIsDeltaEncoded,keyComparator,keyColumnFamilyId,
    keyColumnFamilyName,keyExternalVersion,keyExternalGlobalSeqno]

theorem propertyNames_length : ∀ n ∈ propertyNames, (strBytes n).length ≤ 38 := by decide

theorem propertyNames_nodup : (propertyNames.map strBytes).Nodup := by decide

theorem propertyEntries_names (props : PropertiesInput) :
    ((propertyEntries props).map Prod.fst).Sublist propertyNames := by
  have hopt : ∀ (c : Bool) (n : String) (v : Bytes),
      ((if c then [] else [(n,v)]).map Prod.fst).Sublist [n] := by
    intro c n v
    cases c <;> simp
  have hext : ((match props.externalSstGlobalSeqno with
      | some globalSeqno => [(keyExternalVersion,leBytes 4 externalSstVersion.toNat),
          (keyExternalGlobalSeqno,leBytes 8 globalSeqno.toNat)]
      | none => []).map Prod.fst).Sublist [keyExternalVersion,keyExternalGlobalSeqno] := by
    cases props.externalSstGlobalSeqno <;> simp
  simp only [propertyEntries,List.map_append]
  exact ((((List.Sublist.refl _).append (hopt _ _ _)).append (List.Sublist.refl _)).append
    (hopt _ _ _)).append hext

theorem propertyEntries_value (props : PropertiesInput) :
    ∀ e ∈ propertyEntries props, e.2.length ≤ 10 ∨
      e = (keyComparator,strBytes props.comparatorName) ∨
      e = (keyColumnFamilyName,strBytes props.columnFamilyName) := by
  have hvar := fun v => (putVarint64_length v).2
  intro e he
  simp only [propertyEntries,List.mem_append] at he
  rcases he with (((he | he) | he) | he) | he
  · left
    simp only [List.mem_cons,List.not_mem_nil,or_false] at he
    rcases he with rfl | rfl | rfl | rfl | rfl | rfl | rfl | rfl
    · simp
    · exact hvar props.numEntries
    · exact hvar props.rawKeySize
    · exact hvar props.rawValueSize
    · exact hvar props.dataSize
    · exact hvar props.indexSize
    · exact hvar 0
    · exact hvar 1
  · split at he
    · simp at he
    · rw [List.mem_singleton.mp he]
      exact .inr (.inl rfl)
  · rw [List.mem_singleton.mp he]
    exact .inl (hvar _)
  · split at he
    · simp at he
    · rw [List.mem_singleton.mp he]
      exact .inr (.inr rfl)
  · left
    split at he
    · simp only [List.mem_cons,List.not_mem_nil,or_false] at he
      rcases he with rfl | rfl
      all_goals simp
    · simp at he

theorem propertyEntries_name_length (props : PropertiesInput) {e : String × Bytes}
    (h : e ∈ propertyEntries props) : (strBytes e.1).length ≤ 38 :=
  propertyNames_length e.1 ((propertyEntries_names props).subset (List.mem_map_of_mem h))

theorem propertyEntries_size (props : PropertiesInput) :
    ∀ e ∈ propertyEntries props, (strBytes e.1).length+e.2.length ≤
      48+(strBytes props.comparatorName).length+(strBytes props.columnFamilyName).length := by
  intro e he
  have hn := propertyEntries_name_length props he
  rcases propertyEntries_value props e he with hv | rfl | rfl
  · omega
  · simp only at hn ⊢
    omega
  · simp only at hn ⊢
    omega

def propertyRecords (props : PropertiesInput) : List Entry :=
  (sortByName (propertyEntries props)).map (fun e => (strBytes e.1,e.2))

theorem mem_propertyRecords {props : PropertiesInput} {e : Entry} :
    e ∈ propertyRecords props ↔ ∃ p ∈ propertyEntries props, (strBytes p.1,p.2) = e := by
  simp only [propertyRecords,sortByName,List.mem_map,List.mem_mergeSort]

theorem propertyRecords_length (props : PropertiesInput) : (propertyRecords props).length ≤ 13 := by
  have hnames := (propertyEntries_names props).length_le
  rw [List.length_map] at hnames
  rw [propertyRecords,sortByName,List.length_map,List.length_mergeSort]
  exact hnames

theorem buildPropertiesBlock_ok (props : PropertiesInput) : buildPropertiesBlock props =
    .ok (BlockBuilder.ofEntries (2^64-1) (propertyRecords props)).finish :=
  buildNamedBlock_ok (by decide) _

theorem buildPropertiesBlock_length {props : PropertiesInput} {raw : Bytes}
    (h : buildPropertiesBlock props = .ok raw) :
    raw.length ≤ 1100+13*((strBytes props.comparatorName).length+
      (strBytes props.columnFamilyName).length) := by
  rw [buildPropertiesBlock_ok,Except.ok.injEq] at h
  have hlen := BlockBuilder.ofEntries_length_le (2^64-1) (propertyRecords props)
  have hcount := propertyRecords_length props
  have hentry : ∀ e ∈ propertyRecords props, e.1.length+e.2.length ≤
      48+(strBytes props.comparatorName).length+(strBytes props.columnFamilyName).length := by
    intro e he
    obtain ⟨p,hp,rfl⟩ := mem_propertyRecords.mp he
    exact propertyEntries_size props p hp
  have hsize := totalBytes_le hentry
  have hmul := Nat.mul_le_mul_right (48+(strBytes props.comparatorName).length+
      (strBytes props.columnFamilyName).length) hcount
  rw [h] at hlen
  omega

theorem sortByName_increasing {α : Type} {entries : List (String × α)}
    (h : (entries.map (fun e => strBytes e.1)).Nodup) :
    (sortByName entries).Pairwise (fun a b => compare (strBytes a.1) (strBytes b.1) = .lt) := by
  have hperm : (sortByName entries).Perm entries := List.mergeSort_perm _ _
  have hne := List.pairwise_map.mp ((hperm.map _).nodup_iff.mpr h)
  have hle : (sortByName entries).Pairwise
      (fun a b => compare (strBytes a.1) (strBytes b.1) != .gt) := by
    refine List.pairwise_mergeSort (fun a b c hab hbc => ?_) (fun a b => ?_) entries
    · simp only [bne_iff_ne,ne_eq,← Ordering.isLE_iff_ne_gt] at hab hbc ⊢
      exact Std.TransCmp.isLE_trans hab hbc
    · rw [Std.OrientedOrd.eq_swap (a:=strBytes b.1) (b:=strBytes a.1)]
      cases compare (strBytes a.1) (strBytes b.1) <;> rfl
  refine (hle.and hne).imp (fun {a b} hab => ?_)
  obtain ⟨hgt,hneq⟩ := hab
  cases hc : compare (strBytes a.1) (strBytes b.1) with
  | lt => rfl
  | eq => exact absurd (Std.LawfulEqCmp.eq_of_compare hc) hneq
  | gt => simp [hc] at hgt

theorem propertyRecords_increasing (props : PropertiesInput) :
    (propertyRecords props).Pairwise (fun a b => compare a.1 b.1 = .lt) := by
  refine List.pairwise_map.mpr (sortByName_increasing ?_)
  have hsub := (propertyEntries_names props).map strBytes
  rw [List.map_map] at hsub
  exact hsub.nodup propertyNames_nodup

theorem buildPropertiesBlock_reads {props : PropertiesInput} {raw : Bytes}
    (h : buildPropertiesBlock props = .ok raw) (hl : raw.length < 2^63)
    (hc : (strBytes props.comparatorName).length < 2^32)
    (hn : (strBytes props.columnFamilyName).length < 2^32) :
    ∃ parsed, parseBlock raw = .ok parsed ∧
      forEachEntry parsed = (propertyRecords props,.ok ()) := by
  rw [buildPropertiesBlock_ok,Except.ok.injEq] at h
  subst h
  have hfit : ∀ e ∈ propertyRecords props, Fits e := by
    intro e he
    obtain ⟨p,hp,rfl⟩ := mem_propertyRecords.mp he
    have hname := propertyEntries_name_length props hp
    refine ⟨Nat.lt_of_le_of_lt hname (by decide),?_⟩
    show p.2.length < 2^32
    rcases propertyEntries_value props p hp with hv | rfl | rfl
    · omega
    · exact hc
    · exact hn
  have hcount := propertyRecords_length props
  have hr := (BlockBuilder.ofEntries_sizes (2^64-1) (propertyRecords props)).2
  exact forEachEntry_ofEntries hfit (by omega) hl

/-- With 2^32 bytes for the name of the comparator the block cannot be read back, unless they look
like records. -/
theorem buildPropertiesBlock_huge {props : PropertiesInput} {raw rest : Bytes} {a b c : UInt8}
    (h : buildPropertiesBlock props = .ok raw) (hl : raw.length < 2^63)
    (hc : (strBytes props.comparatorName).length = 2^32)
    (hn : (strBytes props.columnFamilyName).length < 2^32)
    (hname : strBytes props.comparatorName = a :: b :: c :: rest)
    (ha : (strBytes keyComparator).length < a.toNat ∧ a.toNat < 128) (hb : b.toNat < 128)
    (hc' : c.toNat < 128) : ∃ parsed, parseBlock raw = .ok parsed ∧ (forEachEntry parsed).2 =
      .error (.err "corrupt entry: shared_bytes exceeds last key length") := by
  rw [buildPropertiesBlock_ok,Except.ok.injEq] at h
  subst h
  have hne : ¬ props.comparatorName.isEmpty := by
    intro hempty
    rw [String.isEmpty_iff.mp hempty] at hname
    contradiction
  have hpush : (keyComparator,strBytes props.comparatorName) ∈ propertyEntries props := by
    rw [propertyEntries,if_neg hne]
    simp only [List.mem_append]
    exact .inl (.inl (.inl (.inr (List.mem_singleton_self _))))
  obtain ⟨pre,post,hes⟩ := List.append_of_mem (mem_propertyRecords.mpr ⟨_,hpush,rfl⟩)
  have hfit : ∀ e ∈ pre, Fits e := by
    intro e he
    have hmem : e ∈ propertyRecords props := by
      rw [hes]
      exact List.mem_append_left _ he
    have hlt : compare e.1 (strBytes keyComparator) = .lt := by
      have hinc := propertyRecords_increasing props
      rw [hes,List.pairwise_append] at hinc
      exact hinc.2.2 e he _ List.mem_cons_self
    obtain ⟨p,hp,rfl⟩ := mem_propertyRecords.mp hmem
    have hlen := propertyEntries_name_length props hp
    refine ⟨Nat.lt_of_le_of_lt hlen (by decide),?_⟩
    show p.2.length < 2^32
    rcases propertyEntries_value props p hp with hv | rfl | rfl
    · omega
    · simp only [Std.ReflOrd.compare_self] at hlt
      contradiction
    · exact hn
  have hcount := propertyRecords_length props
  have hr := (BlockBuilder.ofEntries_sizes (2^64-1) (propertyRecords props)).2
  exact forEachEntry_huge hfit ha.1 hc hname ha.2 hb hc' hes (by omega) hl

end SstCompactor
