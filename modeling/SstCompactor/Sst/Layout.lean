import Mathlib.Algebra.BigOperators.Group.List.Basic
import SstCompactor.Sst.Index

set_option autoImplicit false

namespace SstCompactor
open FixedWidth

/-- Blocks that stand one behind the other from `start` to `stop`, each with its trailer. -/
def Tiles (stop : Nat) : Nat → List BlockHandle → Prop
  | start, [] => start = stop
  | start, handle :: handles => handle.offset.toNat = start ∧
      Tiles stop (start+handle.size.toNat+blockTrailerSize) handles

theorem Tiles.append {start mid stop : Nat} {hs gs : List BlockHandle} (h : Tiles mid start hs)
    (hg : Tiles stop mid gs) : Tiles stop start (hs ++ gs) := by
  induction hs generalizing start with
  | nil =>
    cases h
    exact hg
  | cons handle hs ih => exact ⟨h.1,ih h.2⟩

def numericProperty (props : List Entry) (name : String) : Option Nat := do
  let e ← props.find? (fun e => e.1 = strBytes name)
  let v ← (getVarint64 e.2 0).1
  pure v.toNat

theorem find_of_increasing {props : List Entry}
    (h : props.Pairwise (fun a b => compare a.1 b.1 = .lt)) {name value : Bytes}
    (hm : (name,value) ∈ props) : props.find? (fun e => e.1 = name) = some (name,value) := by
  induction props with
  | nil => simp at hm
  | cons e props ih =>
    obtain ⟨hlt,hrest⟩ := List.pairwise_cons.mp h
    rcases List.mem_cons.mp hm with rfl | hm
    · simp
    · have hne : e.1 ≠ name := by
        intro he
        have hlt := hlt _ hm
        rw [he,Std.ReflOrd.compare_self] at hlt
        cases hlt
      rw [List.find?_cons_of_neg (by simpa using hne)]
      exact ih hrest hm

theorem numericProperty_records {props : PropertiesInput} {name : String} {v : UInt64}
    (h : (name,putVarint64 v) ∈ propertyEntries props) :
    numericProperty (propertyRecords props) name = some v.toNat := by
  have hfind := find_of_increasing (propertyRecords_increasing props)
    (mem_propertyRecords.mpr ⟨_,h,rfl⟩)
  have hget := getVarint64_put [] [] v
  simp only [List.nil_append,List.append_nil,List.length_nil] at hget
  simp [numericProperty,hfind,hget]

structure Metadata where
  data : List BlockHandle
  index : BlockHandle
  props : BlockHandle
  listed : List Entry

section
variable (X : Crates)

/-- `m` is what an open file says of itself, and it is true of a file of the entries. -/
structure Truthful (r : SstReader) (entries : List Entry) (m : Metadata) : Prop where
  data_listed : dataHandles r.index = .ok m.data
  index_found : r.findMetaBlockHandle indexBlockName = .ok (some m.index)
  props_found : r.findMetaBlockHandle propertiesBlockName = .ok (some m.props)
  tiles : ∃ stop, Tiles stop 0 (m.data ++ [m.index,m.props,r.footer.metaindexHandle]) ∧
    stop+footerTailLen = r.reader.contents.length
  filled : ∀ handle ∈ m.data, ∃ es, r.blockEntries X handle = .ok es ∧ es ≠ []
  props_listed : r.blockEntries X m.props = .ok m.listed
  increasing : m.listed.Pairwise (fun a b => compare a.1 b.1 = .lt)
  num_entries : numericProperty m.listed keyNumEntries = some entries.length
  raw_key_size : numericProperty m.listed keyRawKeySize = some (keyBytes entries)
  raw_value_size : numericProperty m.listed keyRawValueSize = some (valueBytes entries)
  data_size : numericProperty m.listed keyDataSize = some m.index.offset.toNat
  index_size : numericProperty m.listed keyIndexSize = some m.index.size.toNat

variable (opts : SstBuilderOptions)

theorem tiles_writeBlock {file raw : Bytes} (h : file.length+raw.length < 2^64) :
    Tiles (writeBlock X opts file raw).1.length file.length [(writeBlock X opts file raw).2] := by
  obtain ⟨ho,hs⟩ := writeBlock_handle X opts file raw h
  refine ⟨ho,?_⟩
  rw [hs,writeBlock_length]
  rfl

theorem tiles_layOut (file : Bytes) (runs : List (List Entry))
    (h : (layOut X opts file runs).1.length < 2^64) :
    Tiles (layOut X opts file runs).1.length file.length
      ((layOut X opts file runs).2.map Prod.snd) := by
  induction runs generalizing file with
  | nil => exact rfl
  | cons es runs ih =>
    obtain ⟨post,hp⟩ := layOut_extends X opts (writeBlock X opts file (dataBlock es).finish).1 runs
    have hl : (layOut X opts file (es :: runs)).1 =
        (layOut X opts (writeBlock X opts file (dataBlock es).finish).1 runs).1 := rfl
    have hle : file.length+(dataBlock es).finish.length < 2^64 := by
      rw [hl,hp,List.length_append,writeBlock_length] at h
      omega
    exact (tiles_writeBlock X opts hle).append
      (ih (writeBlock X opts file (dataBlock es).finish).1 h)

namespace Image
variable {X opts} {es : List Entry}

theorem tiles (i : Image X opts es) (hl : i.bytes.length < 2^63) :
    Tiles i.metaed.1.length 0 ((layOut X opts [] (dataBlocks es)).2.map Prod.snd ++
      [i.indexed.2,i.propped.2,i.metaed.2]) := by
  have hlen := i.lengths
  have hdata := tiles_layOut X opts [] (dataBlocks es) (by omega)
  have hindex : Tiles i.indexed.1.length (layOut X opts [] (dataBlocks es)).1.length
    [i.indexed.2] := tiles_writeBlock X opts (by omega)
  have hprops : Tiles i.propped.1.length i.indexed.1.length [i.propped.2] :=
    tiles_writeBlock X opts (by omega)
  have hmeta : Tiles i.metaed.1.length i.propped.1.length [i.metaed.2] :=
    tiles_writeBlock X opts (by omega)
  exact hdata.append (hindex.append (hprops.append hmeta))

theorem fetch_props (i : Image X opts es) {fetch : BlockHandle → Exec Bytes}
    (hs : Serves X opts fetch i.bytes) : fetch i.propped.2 = .ok i.props := by
  refine hs.written i.indexed.1 i.props (encodeBlockWithTrailer X i.metaRaw
    (UInt64.ofNat i.propped.1.length) opts.checksumType opts.baseContextChecksum ++ i.footer) ?_
  rw [bytes,metaed,writeBlock_fst,List.append_assoc]
  rfl

end Image

theorem SstReader.findMetaHandle_properties {parsed : ParsedBlock} {props index : BlockHandle}
    (h : SstCompactor.forEachEntry parsed = (metaEntries props index,.ok ())) :
    findMetaHandle parsed propertiesBlockName = .ok (some props) := by
  have hne : strBytes indexBlockName ≠ strBytes propertiesBlockName := by decide
  simp [findMetaHandle,h,metaEntries,decodeMetaValueHandle_metaValue,hne]

/-- Keys of any length may be written as they are; a key to be rewritten has a suffix. -/
def Writable (entries : List Entry) : Prop :=
  opts.externalSstGlobalSeqno ≠ none → ∀ e ∈ entries, WellFormed e.1

variable {opts} in
theorem Writable.counts {entries : List Entry} (h : Writable opts entries) :
    writtenEntries opts entries = .ok (written opts entries) ∧
      (written opts entries).length = entries.length ∧
      keyBytes (written opts entries) = keyBytes entries ∧
      valueBytes (written opts entries) = valueBytes entries := by
  cases hopt : opts.externalSstGlobalSeqno with
  | none =>
    rw [written_none opts hopt]
    exact ⟨writtenEntries_none opts hopt entries,rfl,rfl,rfl⟩
  | some g =>
    have hwf := h (by simp [hopt])
    refine ⟨writtenEntries_ok opts hwf,?_,?_,?_⟩
    · rw [written_eq_map,List.length_map]
    · rw [written_eq_map,keyBytes,keyBytes,List.map_map]
      congr 1
      exact List.map_congr_left (fun e he => writtenEntry_wf opts (hwf e he))
    · rw [written_eq_map,valueBytes,valueBytes,List.map_map]
      congr 1
      exact List.map_congr_left (fun e _ => congrArg List.length (writtenEntry_snd opts e))

variable {opts} in
theorem Writable.fits {entries : List Entry} (h : Writable opts entries)
    (hf : ∀ e ∈ entries, Fits e) : ∀ e ∈ written opts entries, Fits e := by
  cases hopt : opts.externalSstGlobalSeqno with
  | none =>
    rw [written_none opts hopt]
    exact hf
  | some g => exact written_fits opts (h (by simp [hopt])) hf

theorem indexes_filled {block : BlockHandle → Exec (List Entry)} {runs : List (List Entry)}
    {index : List (Bytes × BlockHandle)} (h : List.Forall₂ (Indexes block) runs index) :
    ∀ handle ∈ index.map Prod.snd, ∃ es, block handle = .ok es ∧ es ≠ [] := by
  induction h with
  | nil => simp
  | @cons run i runs index hi _ ih =>
    intro handle hh
    rcases List.mem_cons.mp hh with rfl | hh
    · refine ⟨run,hi.1,?_⟩
      rintro rfl
      exact absurd hi.2 (by simp [lastKeyOf])
    · exact ih handle hh

theorem entriesAt_stray {fetch : BlockHandle → Exec Bytes} {bytes : Bytes}
    (hs : Serves X opts fetch bytes) (es : List Entry) : entriesAt fetch ⟨0,0⟩ ≠ .ok es := by
  intro h
  obtain ⟨raw,hraw,h⟩ := bind_eq_ok h
  rw [hs.stray raw hraw,parseBlock_nil] at h
  cases h

theorem Image.truthful {es : List Entry} (i : Image X opts es) (hw : i.Written X opts)
    (hp : buildPropertiesBlock (i.input X opts) = .ok i.props) (hf : ∀ e ∈ es, Fits e)
    (hk : keyBytes es < 2^64) (hv : valueBytes es < 2^64) (hn : dataBlockCount es < 2^32)
    (hc : (strBytes opts.comparatorName).length < 2^32)
    (hcf : (strBytes opts.columnFamilyName).length < 2^32)
    {reader : FileReader} (hr : reader.contents = i.bytes) :
    ∃ r m, SstReader.openSst X reader = .ok r ∧ Truthful X r es m := by
  obtain ⟨hl,hs⟩ := i.served hr
  have hlen := i.lengths
  rw [i.footer_length hw] at hlen
  have hcount := length_le_dataBlockCount es
  obtain ⟨post,hbytes⟩ := i.bytes_layOut
  obtain ⟨index,hidx,hlow,-⟩ := i.index_lists hl hf
  obtain ⟨metaindex,hopen,hmeta⟩ := openSst_ok X opts hw hr hidx
  obtain ⟨parsed,hparse,hread⟩ := buildPropertiesBlock_reads hp (by omega) hc hcf
  refine ⟨_,⟨(layOut X opts [] (dataBlocks es)).2.map Prod.snd,i.indexed.2,i.propped.2,
    propertyRecords (i.input X opts)⟩,hopen,?_⟩
  constructor
  · simp only [dataHandles,hlow hn,ok_bind,pure_eq_ok]
  · exact SstReader.findMetaHandle_index hmeta
  · exact SstReader.findMetaHandle_properties hmeta
  · exact ⟨i.metaed.1.length,i.tiles hl,by rw [hr]; exact hlen.2.2.2.symm⟩
  · exact indexes_filled
      (hs.indexes_layOut hl [] post (dataBlocks es) hbytes (dataBlocks_runs es hf))
  · simp only [SstReader.blockEntries,entriesAt,i.fetch_props hs,ok_bind,hparse,hread,pure_eq_ok]
  · exact propertyRecords_increasing _
  · rw [numericProperty_records (v:=(i.input X opts).numEntries) (by simp [propertyEntries])]
    exact congrArg some (toNat_ofNat64 (by omega))
  · rw [numericProperty_records (v:=(i.input X opts).rawKeySize) (by simp [propertyEntries])]
    exact congrArg some (toNat_ofNat64 hk)
  · rw [numericProperty_records (v:=(i.input X opts).rawValueSize) (by simp [propertyEntries])]
    exact congrArg some (toNat_ofNat64 hv)
  · exact numericProperty_records (v:=(i.input X opts).dataSize) (by simp [propertyEntries])
  · exact numericProperty_records (v:=(i.input X opts).indexSize) (by simp [propertyEntries])

theorem Image.not_truthful {es : List Entry} (i : Image X opts es) (hw : i.Written X opts)
    (hf : ∀ e ∈ es, Fits e) (hn : 2^32 ≤ dataBlockCount es) {reader : FileReader}
    (hr : reader.contents = i.bytes) {r : SstReader} (ho : SstReader.openSst X reader = .ok r)
    (entries : List Entry) (m : Metadata) : ¬ Truthful X r entries m := by
  intro ht
  obtain ⟨hl,hs⟩ := i.served hr
  obtain ⟨index,hidx,-,hhigh⟩ := i.index_lists hl hf
  obtain ⟨metaindex,hopen,-⟩ := openSst_ok X opts hw hr hidx
  rw [ho,Except.ok.injEq] at hopen
  subst hopen
  obtain ⟨more,outcome,hwalk⟩ := hhigh hn
  have hdata := ht.data_listed
  simp only [dataHandles,hwalk] at hdata
  obtain ⟨u,-,hdata⟩ := bind_eq_ok hdata
  rw [pure_eq_ok,Except.ok.injEq] at hdata
  obtain ⟨read,hread,-⟩ := ht.filled ⟨0,0⟩ (by rw [← hdata]; simp [strayEntry])
  exact entriesAt_stray X opts hs read hread

theorem Image.not_truthful_of_props {es : List Entry} (i : Image X opts es)
    (hw : i.Written X opts) (hf : ∀ e ∈ es, Fits e) {parsed : ParsedBlock} {e : Fault}
    (hp : parseBlock i.props = .ok parsed) (he : (forEachEntry parsed).2 = .error e)
    {reader : FileReader} (hr : reader.contents = i.bytes) {r : SstReader}
    (ho : SstReader.openSst X reader = .ok r) (entries : List Entry) (m : Metadata) :
    ¬ Truthful X r entries m := by
  intro ht
  obtain ⟨hl,hs⟩ := i.served hr
  obtain ⟨index,hidx,-,-⟩ := i.index_lists hl hf
  obtain ⟨metaindex,hopen,hmeta⟩ := openSst_ok X opts hw hr hidx
  rw [ho,Except.ok.injEq] at hopen
  subst hopen
  have hfound := ht.props_found
  rw [SstReader.findMetaBlockHandle,SstReader.findMetaHandle_properties hmeta,Except.ok.injEq,
    Option.some.injEq] at hfound
  have hlisted := ht.props_listed
  rw [← hfound] at hlisted
  simp only [SstReader.blockEntries,entriesAt,i.fetch_props hs,ok_bind,hp,he,error_bind] at hlisted
  contradiction

/-- The blocks of a file tile it and its properties are true whenever it has fewer than 2^32
data blocks and the two names of the options fit their length fields. With 2^32 data blocks or
more they never are. -/
theorem buildSst_truthful (entries : List Entry) (he : Writable opts entries)
    (hf : ∀ e ∈ entries, Fits e) (hk : keyBytes entries < 2^64) (hv : valueBytes entries < 2^64) :
    ∃ bytes, buildSst X opts entries = .ok bytes ∧
      ∀ reader : FileReader, reader.contents = bytes →
        (dataBlockCount (written opts entries) < 2^32 ∧
            (strBytes opts.comparatorName).length < 2^32 ∧
            (strBytes opts.columnFamilyName).length < 2^32 →
          ∃ r m, SstReader.openSst X reader = .ok r ∧ Truthful X r entries m) ∧
        ((∃ r m, SstReader.openSst X reader = .ok r ∧ Truthful X r entries m) →
          dataBlockCount (written opts entries) < 2^32) := by
  obtain ⟨hw,hlen,hkeys,hvalues⟩ := he.counts
  have hfit := he.fits hf
  obtain ⟨i,hb,hi,hp⟩ := buildSst_accounts X opts hw
  refine ⟨i.bytes,hb,fun reader hr => ⟨fun hh => ?_,fun hh => ?_⟩⟩
  · obtain ⟨hn,hc,hcf⟩ := hh
    obtain ⟨r,m,ho,ht⟩ := i.truthful X opts hi hp hfit (by omega) (by omega) hn hc hcf hr
    refine ⟨r,m,ho,{ ht with num_entries := ?_,raw_key_size := ?_,raw_value_size := ?_ }⟩
    · rw [ht.num_entries,hlen]
    · rw [ht.raw_key_size,hkeys]
    · rw [ht.raw_value_size,hvalues]
  · obtain ⟨r,m,ho,ht⟩ := hh
    by_contra hn
    exact i.not_truthful X opts hi hfit (Nat.not_lt.mp hn) hr ho entries m ht

end

theorem keyBytes_add_valueBytes (es : List Entry) : keyBytes es+valueBytes es = totalBytes es :=
  List.sum_map_add.symm

theorem buildSst_truthful_two :
    ∃ bytes, buildSst .idle ingestOptions [(leBytes 8 0x201,[1]),(leBytes 8 0x101,[2])] =
        .ok bytes ∧
      ∀ reader : FileReader, reader.contents = bytes →
        ∃ r m, SstReader.openSst .idle reader = .ok r ∧
          Truthful .idle r [(leBytes 8 0x201,[1]),(leBytes 8 0x101,[2])] m := by
  obtain ⟨bytes,hb,hread⟩ := buildSst_truthful .idle ingestOptions
    [(leBytes 8 0x201,[1]),(leBytes 8 0x101,[2])] (fun _ => by decide) (by simp [Fits])
    (by decide) (by decide)
  refine ⟨bytes,hb,fun reader hr => (hread reader hr).1 ⟨?_,by decide,by decide⟩⟩
  have hle := dataBlockCount_le (written ingestOptions
    [(leBytes 8 0x201,[1]),(leBytes 8 0x101,[2])])
  exact Nat.lt_of_le_of_lt hle (by decide)

theorem truthful_manyVersions :
    Writable plainOptions manyVersions ∧ (∀ e ∈ manyVersions, Fits e) ∧
    keyBytes manyVersions < 2^64 ∧ valueBytes manyVersions < 2^64 ∧
    ¬ ∃ bytes, buildSst .idle plainOptions manyVersions = .ok bytes ∧
      ∀ reader : FileReader, reader.contents = bytes →
        ∃ r m, SstReader.openSst .idle reader = .ok r ∧ Truthful .idle r manyVersions m := by
  have hsum := keyBytes_add_valueBytes manyVersions
  have hbytes := manyVersions_totalBytes
  have hlen := manyVersions_length
  refine ⟨fun h => absurd rfl h,manyVersions_fit,by omega,by omega,?_⟩
  intro hh
  obtain ⟨bytes,hb,hread⟩ := hh
  obtain ⟨reader,hreader⟩ := manyVersions_opens
  obtain ⟨i,hi,hw⟩ := buildSst_image .idle plainOptions
    (writtenEntries_none plainOptions rfl manyVersions)
  rw [hb,Except.ok.injEq] at hreader hi
  obtain ⟨r,m,ho,ht⟩ := hread reader hreader.symm
  exact i.not_truthful .idle plainOptions hw manyVersions_fit manyVersions_blocks
    (hreader.symm.trans hi) ho manyVersions m ht

theorem strBytes_letters (n : Nat) :
    strBytes (String.ofList (List.replicate n 'a')) = List.replicate n 97 := by
  have hlist : ∀ cs : List Char, strBytes (String.ofList cs) = cs.flatMap String.utf8EncodeChar := by
    intro cs
    simp [strBytes,String.toUTF8,String.ofList,List.utf8Encode,List.data_toByteArray]
  have hletter : String.utf8EncodeChar 'a' = [97] := by decide
  rw [hlist]
  induction n with
  | zero => rfl
  | succ n ih =>
    rw [List.replicate_succ,List.flatMap_cons,ih,hletter]
    rfl

@[irreducible] def longName : String := String.ofList (List.replicate (2^32) 'a')

theorem longName_bytes : strBytes longName = List.replicate (2^32) 97 := by
  unfold longName
  exact strBytes_letters _

def longNameOptions : SstBuilderOptions := { plainOptions with comparatorName := longName }

theorem truthful_longName :
    Writable longNameOptions longAndShort ∧ (∀ e ∈ longAndShort, Fits e) ∧
    keyBytes longAndShort < 2^64 ∧ valueBytes longAndShort < 2^64 ∧
    ¬ ∃ bytes, buildSst .idle longNameOptions longAndShort = .ok bytes ∧
      ∀ reader : FileReader, reader.contents = bytes →
        ∃ r m, SstReader.openSst .idle reader = .ok r ∧ Truthful .idle r longAndShort m := by
  have hsum := keyBytes_add_valueBytes longAndShort
  have hbytes := longAndShort_totalBytes
  have hname := longName_bytes
  have hlen : (strBytes longName).length = 2^32 := by rw [hname,List.length_replicate]
  have hcf : (strBytes longNameOptions.columnFamilyName).length = 7 := by decide
  have hentries : longAndShort.length = 2 := rfl
  refine ⟨fun h => absurd rfl h,longAndShort_fits,by omega,by omega,?_⟩
  intro hh
  obtain ⟨bytes,hb,hread⟩ := hh
  have hw := writtenEntries_none longNameOptions rfl longAndShort
  obtain ⟨reader,hreader⟩ := buildSst_opens .idle longNameOptions hw (by
    rw [show longNameOptions.comparatorName = longName from rfl,hlen,hcf]
    omega)
  obtain ⟨i,hi,hwritten,hp⟩ := buildSst_accounts .idle longNameOptions hw
  rw [hb,Except.ok.injEq] at hreader hi
  obtain ⟨r,m,ho,ht⟩ := hread reader hreader.symm
  have hr := hreader.symm.trans hi
  have hfile := reader.length_lt
  have hlens := i.lengths
  obtain ⟨n,hn⟩ : ∃ n, 2^32 = n+3 := ⟨2^32-3,by omega⟩
  rw [hn,List.replicate_succ,List.replicate_succ,List.replicate_succ] at hname
  obtain ⟨parsed,hparse,he⟩ := buildPropertiesBlock_huge hp (by rw [hr] at hfile; omega) hlen
    (lt_of_eq_of_lt hcf (by decide)) hname (by decide) (by decide) (by decide)
  exact i.not_truthful_of_props .idle longNameOptions hwritten longAndShort_fits hparse he hr ho
    longAndShort m ht

end SstCompactor
