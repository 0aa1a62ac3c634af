import SstCompactor.Sst.Size
import SstCompactor.Format.Untrusted
import SstCompactor.Merge.Source
import Mathlib.Algebra.Order.BigOperators.Group.List
import Mathlib.Algebra.Order.Group.Nat

set_option autoImplicit false

namespace SstCompactor

section
variable (X : Crates)

def decodeBlockInMemory (fileBytes : Bytes) (ft : Footer) (handle : BlockHandle) :
    Exec Bytes := do
  let start := handle.offset.toNat
  let len ← blockReadLen handle
  let stop ← checkedAdd 64 start len
  let rawWithTrailer ← okOr (getRange fileBytes start stop)
    ("block at offset " ++ toString handle.offset ++ " out of file bounds")
  decodeBlockContents X rawWithTrailer handle ft.checksumType ft.baseContextChecksum

/-- What is asked of fetching a block: no panic, and an `Err` for a block beyond the end of the
file. -/
structure FetchSafe (fileBytes : Bytes) (ft : Footer) (handle : BlockHandle) : Prop where
  returns : Returns (decodeBlockInMemory X fileBytes ft handle)
  outside : fileBytes.length < handle.offset.toNat+handle.size.toNat+5 →
    ∃ m, decodeBlockInMemory X fileBytes ft handle = .error (.err m)

theorem decodeBlockInMemory_returns_iff (fileBytes : Bytes) (ft : Footer) (handle : BlockHandle) :
    Returns (decodeBlockInMemory X fileBytes ft handle) ↔
      handle.offset.toNat+handle.size.toNat+5 < 2^64 ∧
      ∀ buf, getRange fileBytes handle.offset.toNat (handle.offset.toNat+(handle.size.toNat+5)) =
        some buf →
        Returns (decodeBlockContents X buf handle ft.checksumType ft.baseContextChecksum) := by
  rw [decodeBlockInMemory,blockReadLen,Returns.checkedAdd_bind_iff,Returns.checkedAdd_bind_iff,
    blockTrailerSize,Returns.bind_iff,and_iff_right (okOr_returns _ _)]
  constructor
  · rintro ⟨-,hstop,hdecode⟩
    exact ⟨by omega,fun buf hg => hdecode buf (by rw [hg,okOr])⟩
  · rintro ⟨hstop,hdecode⟩
    exact ⟨by omega,by omega,fun buf hb => hdecode buf (okOr_eq_ok hb)⟩

/-- Fetching a block is safe when the end of the block has an offset. -/
theorem decodeBlockInMemory_safe_iff {X : Crates} (hX : X.Total) (file : ByteVec) (ft : Footer)
    (handle : BlockHandle) :
    FetchSafe X file.bytes ft handle ↔ handle.offset.toNat+handle.size.toNat+5 < 2^64 := by
  have hreturns := decodeBlockInMemory_returns_iff X file.bytes ft handle
  refine ⟨fun h => (hreturns.mp h.returns).1,fun hlt => ⟨hreturns.mpr ⟨hlt,?_⟩,fun hout => ?_⟩⟩
  · intro buf _
    exact (decodeBlockContents_returns_iff (by omega)).mpr
      (fun _ raw _ cty _ => decompress_returns hX cty raw)
  · rw [decodeBlockInMemory,blockReadLen,blockTrailerSize,checkedAdd_of_lt (by omega),ok_bind,
      checkedAdd_of_lt (by omega),ok_bind,getRange,if_neg (by omega)]
    exact ⟨_,rfl⟩

def bareFooter : Footer := ⟨blockBasedTableMagic,7,.noChecksum,⟨0,0⟩,none,5,0⟩

theorem decodeBlockInMemory_safe_one :
    Crates.idle.Total ∧ FetchSafe .idle [7,0,0,0,0,0] bareFooter ⟨0,1⟩ ∧
      FetchSafe .idle [7,0,0,0,0,0] bareFooter ⟨3,1⟩ ∧
      ¬ FetchSafe .idle [7,0,0,0,0,0] bareFooter ⟨0xffffffffffffffff,1⟩ := by
  have hiff := decodeBlockInMemory_safe_iff idle_total ⟨[7,0,0,0,0,0],by decide⟩ bareFooter
  exact ⟨idle_total,(hiff ⟨0,1⟩).mpr (by decide),(hiff ⟨3,1⟩).mpr (by decide),
    fun h => absurd ((hiff _).mp h) (by decide)⟩

theorem decodeBlockInMemory_largest_size :
    Crates.idle.Total ∧
      decodeBlockInMemory .idle [] bareFooter ⟨0,0xffffffffffffffff⟩ = .error .overflow ∧
      ¬ FetchSafe .idle [] bareFooter ⟨0,0xffffffffffffffff⟩ := by
  have hd : decodeBlockInMemory .idle [] bareFooter ⟨0,0xffffffffffffffff⟩ =
      .error .overflow := by decide
  refine ⟨idle_total,hd,fun h => ?_⟩
  obtain ⟨m,hm⟩ := h.returns.fault hd
  contradiction

/-- `find_meta_handle` of the compaction module, which reads both numbers before it looks
whether they are there. -/
def findMetaHandle (metaindex : ParsedBlock) (name : String) : Exec (Option BlockHandle) := do
  let (listed,outcome) := forEachEntry metaindex
  outcome
  pure (listed.findSome? (fun e =>
    if e.1 = strBytes name then
      let (offset,pos) := getVarint64 e.2 0
      match offset,getVarint64 e.2 pos with
      | some offset,(some size,_) => some ⟨offset,size⟩
      | _,_ => none
    else none))

def loadArenaSource (reader : FileReader) : Exec ArenaSource := do
  let fileSize := reader.fileSize
  let fileBytes ← ioResult "failed to read whole file: " (reader.readAt 0 fileSize.toNat)
  let tailStart ← checkedSub fileBytes.length footerTailLen
  let tail ← slice fileBytes tailStart fileBytes.length
  let ft ← decodeFooter X tail fileSize
  let metaindexRaw ← decodeBlockInMemory X fileBytes ft ft.metaindexHandle
  let metaindex ← parseBlock metaindexRaw
  let indexHandle ← match ft.indexHandle with
    | some h => pure h
    | none => do
        let found ← findMetaHandle metaindex "rocksdb.index"
        okOr found "index block handle missing from metaindex"
  let indexRaw ← decodeBlockInMemory X fileBytes ft indexHandle
  let index ← parseBlock indexRaw
  let handles ← dataHandles index
  -- The builder takes every entry as it is read; it is only built when all could be read.
  let (es,outcome) := visitBlocks (decodeBlockInMemory X fileBytes ft) handles
  outcome
  pure (ArenaSource.ofEntries es)

variable (opts : SstBuilderOptions)

theorem decodeBlockInMemory_serves {fileBytes : Bytes} (hl : fileBytes.length < 2^63)
    (ft : Footer) (ht : ft.checksumType = opts.checksumType)
    (hb : ft.baseContextChecksum = opts.baseContextChecksum) :
    Serves X opts (decodeBlockInMemory X fileBytes ft) fileBytes where
  written := by
    intro file raw post hf
    rw [hf,List.length_append,writeBlock_length] at hl
    obtain ⟨ho,hs⟩ := writeBlock_handle X opts file raw (by omega)
    have hg := getRange_at (d:=fileBytes) (p:=file) (q:=post) (a:=file.length)
      (b:=file.length+(raw.length+5)) hf rfl (by rw [encodeBlockWithTrailer_length])
    have hd := decodeBlockContents_encode X raw (UInt64.ofNat file.length) opts.checksumType
      opts.baseContextChecksum (by omega)
    rw [decodeBlockInMemory,blockReadLen,hs,blockTrailerSize,checkedAdd_of_lt (by omega),ok_bind,ho,
      checkedAdd_of_lt (by omega),ok_bind,hg,ht,hb]
    exact hd
  stray := by
    intro raw h
    obtain ⟨len,-,h⟩ := bind_eq_ok h
    obtain ⟨stop,-,h⟩ := bind_eq_ok h
    obtain ⟨buf,-,h⟩ := bind_eq_ok h
    exact decodeBlockContents_nil X h

theorem findMetaHandle_index {parsed : ParsedBlock} {props index : BlockHandle}
    (h : forEachEntry parsed = (metaEntries props index,.ok ())) :
    findMetaHandle parsed indexBlockName = .ok (some index) := by
  have h₁ := getVarint64_put [] (putVarint64 index.size) index.offset
  have h₂ := getVarint64_put (putVarint64 index.offset) [] index.size
  simp only [List.nil_append,List.append_nil,List.length_nil,Nat.zero_add] at h₁ h₂
  simp [findMetaHandle,h,metaEntries,metaValue,h₁,h₂]

theorem FileReader.readAt_all (reader : FileReader) :
    reader.readAt 0 reader.contents.length = .ok reader.contents := by
  have hg := getRange_at (d:=reader.contents) (p:=[]) (q:=[]) (a:=0)
    (b:=0+reader.contents.length) (by simp) rfl rfl
  rw [FileReader.readAt,hg]

theorem loadArenaSource_opened {es : List Entry} {i : Image X opts es} (hw : i.Written X opts)
    {reader : FileReader} (hr : reader.contents = i.bytes) {index : ParsedBlock}
    (hi : parseBlock i.index.finish = .ok index) :
    loadArenaSource X reader = (do
      let handles ← dataHandles index
      let (es,outcome) := visitBlocks (decodeBlockInMemory X i.bytes ⟨blockBasedTableMagic,7,
        opts.checksumType,i.metaed.2,none,5,opts.baseContextChecksum⟩) handles
      outcome
      pure (ArenaSource.ofEntries es)) := by
  have hl := (i.served hr).1
  have hsize : reader.fileSize.toNat = i.bytes.length := by rw [reader.fileSize_toNat,hr]
  have hall : reader.readAt 0 i.bytes.length = .ok i.bytes := by
    rw [← hr]
    exact reader.readAt_all
  have hsub : checkedSub i.bytes.length footerTailLen = .ok (i.bytes.length-footerTailLen) := by
    refine checkedSub_of_le ?_
    rw [i.lengths.2.2.2,i.footer_length hw]
    exact Nat.le_add_left _ _
  have hft : decodeFooter X i.footer reader.fileSize = .ok ⟨blockBasedTableMagic,7,
      opts.checksumType,i.metaed.2,none,5,opts.baseContextChecksum⟩ := by
    rw [FileReader.fileSize,hr]
    exact i.footer_reads hl hw
  have hs := decodeBlockInMemory_serves X opts hl ⟨blockBasedTableMagic,7,
      opts.checksumType,i.metaed.2,none,5,opts.baseContextChecksum⟩ rfl rfl
  obtain ⟨metaindex,hm,hread⟩ := i.meta_reads
  have hfind : findMetaHandle metaindex "rocksdb.index" = .ok (some i.indexed.2) :=
    findMetaHandle_index hread
  simp only [loadArenaSource,hsize,hall,ioResult,ok_bind,hsub,i.tail_slice hw,hft,
    i.fetch_meta hs,hm,hfind,okOr,i.fetch_index hs,hi]

theorem loadArenaSource_reads {entries es : List Entry}
    (hw : writtenEntries opts entries = .ok es) (hf : ∀ e ∈ es, Fits e) :
    ∃ bytes, buildSst X opts entries = .ok bytes ∧
      ∀ reader : FileReader, reader.contents = bytes →
        ReadsBack (dataBlockCount es) (loadArenaSource X reader) (ArenaSource.ofEntries es) := by
  obtain ⟨i,hb,hi⟩ := buildSst_image X opts hw
  refine ⟨i.bytes,hb,fun reader hr => ?_⟩
  have hl := (i.served hr).1
  have hs := decodeBlockInMemory_serves X opts hl ⟨blockBasedTableMagic,7,
      opts.checksumType,i.metaed.2,none,5,opts.baseContextChecksum⟩ rfl rfl
  obtain ⟨index,hidx,hlow,hhigh⟩ := i.index_reads hl hf hs
  have hload := loadArenaSource_opened X opts hi hr hidx
  constructor
  · intro hlt
    obtain ⟨handles,hh,hv⟩ := hlow hlt
    simp only [hload,hh,ok_bind,hv,pure_eq_ok]
  · intro hge
    rcases hhigh hge with ⟨e,hh⟩ | ⟨handles,e,hh,hv⟩
    · exact ⟨e,by simp only [hload,hh,error_bind]⟩
    · exact ⟨e,by simp only [hload,hh,ok_bind,hv,error_bind]⟩

theorem fits_of_totalBytes {es : List Entry} (h : totalBytes es < 2^32) : ∀ e ∈ es, Fits e := by
  intro e he
  have hle : e.1.length+e.2.length ≤ totalBytes es :=
    List.le_sum_of_mem (List.mem_map_of_mem (f:=fun e : Entry => e.1.length+e.2.length) he)
  exact ⟨by omega,by omega⟩

/-- Reading undoes writing for the whole file, if and only if it has fewer than 2^32 data
blocks. -/
theorem load_build_iff {entries : List Entry} (hext : opts.externalSstGlobalSeqno = none)
    (hcap : totalBytes entries < 2^32) :
    ∃ bytes, buildSst X opts entries = .ok bytes ∧
      ∀ reader : FileReader, reader.contents = bytes →
        ((∃ source, loadArenaSource X reader = .ok source ∧ Yields source entries) ↔
          dataBlockCount entries < 2^32) := by
  have hw := writtenEntries_none opts hext entries
  obtain ⟨bytes,hb,hread⟩ := loadArenaSource_reads X opts hw (fits_of_totalBytes hcap)
  refine ⟨bytes,hb,fun reader hr => ?_⟩
  rw [(hread reader hr).iff]
  exact and_iff_left (ofEntries_yields hcap)

end

theorem load_build_two :
    ∃ bytes, buildSst .idle plainOptions [([1],[2]),([1,3],[])] = .ok bytes ∧
      ∀ reader : FileReader, reader.contents = bytes →
        ((∃ source, loadArenaSource .idle reader = .ok source ∧
          Yields source [([1],[2]),([1,3],[])]) ↔
          dataBlockCount [([1],[2]),([1,3],[])] < 2^32) :=
  load_build_iff .idle plainOptions rfl (by decide)

theorem load_fails {entries : List Entry} (hn : 1366*2^32 ≤ entries.length)
    (hn' : entries.length < 2^50) (hcap : totalBytes entries < 2^32) :
    ¬ ∃ bytes, buildSst .idle plainOptions entries = .ok bytes ∧
      ∀ reader : FileReader, reader.contents = bytes →
        ∃ source, loadArenaSource .idle reader = .ok source ∧ Yields source entries := by
  intro hh
  obtain ⟨bytes,hbuild,hload⟩ := hh
  obtain ⟨reader,hreader⟩ := plainOptions_opens hn' (by omega)
  obtain ⟨bytes',hbuild',hread⟩ := loadArenaSource_reads .idle plainOptions
    (writtenEntries_none plainOptions rfl entries) (fits_of_totalBytes hcap)
  have hcount : 2^32 ≤ dataBlockCount entries := by
    have := length_le_dataBlockCount entries
    omega
  rw [hreader,Except.ok.injEq] at hbuild hbuild'
  obtain ⟨e,he⟩ := (hread reader hbuild').high hcount
  obtain ⟨source,hs,-⟩ := hload reader hbuild
  rw [he] at hs
  contradiction

@[irreducible] def manyEmpty : List Entry := List.replicate (1366*2^32) ([],[])

theorem manyEmpty_length : manyEmpty.length = 1366*2^32 := by
  unfold manyEmpty
  exact List.length_replicate

theorem manyEmpty_totalBytes : totalBytes manyEmpty = 0 := by
  unfold manyEmpty
  rw [totalBytes,List.map_replicate,List.sum_replicate_nat]
  rfl

/-- With 2^32 data blocks the restart count of the index block, cut to 32 bits, no longer
says where the index entries end. -/
theorem load_build_manyEmpty :
    plainOptions.externalSstGlobalSeqno = none ∧ totalBytes manyEmpty < 2^32 ∧
      ¬ ∃ bytes, buildSst .idle plainOptions manyEmpty = .ok bytes ∧
        ∀ reader : FileReader, reader.contents = bytes →
          ∃ source, loadArenaSource .idle reader = .ok source ∧ Yields source manyEmpty := by
  have hn := manyEmpty_length
  have hb := manyEmpty_totalBytes
  exact ⟨rfl,by omega,load_fails (by omega) (by omega) (by omega)⟩

end SstCompactor
