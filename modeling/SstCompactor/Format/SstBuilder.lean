import SstCompactor.Format.Properties
import SstCompactor.Format.InternalKey
import SstCompactor.Codec.Greedy

set_option autoImplicit false

namespace SstCompactor
open FixedWidth

def dataBlockRestartInterval : Nat := 16
def indexBlockRestartInterval : Nat := 1
def targetBlockSize : Nat := 4096
def formatVersion : Nat := 7

structure SstBuilderOptions where
  checksumType : ChecksumType := .xxH3
  comparatorName : String := bytewiseComparatorName
  columnFamilyId : UInt64 := 0
  columnFamilyName : String := "default"
  baseContextChecksum : UInt32 := 0x1
  externalSstGlobalSeqno : Option UInt64 := none

/-- The sequence number set to 0, the type byte kept. -/
def zeroOutSeqno (internalKey : Bytes) : Exec Bytes := do
  let n ← checkedSub internalKey.length 8
  let valueType := ofLe (internalKey.drop n) &&& 0xff
  pure (internalKey.take n ++ leBytes 8 valueType)

/-- What the loop of `build_sst` carries from entry to entry. The two sums are of lengths
of vectors held in memory at once. -/
structure SstState where
  file : Bytes
  indexBuilder : IndexBlockBuilder
  blockBuilder : BlockBuilder
  pendingLastKey : Option Bytes
  rawKeySize : UInt64
  rawValueSize : UInt64

section
variable (X : Crates) (opts : SstBuilderOptions)

def writeBlock (file raw : Bytes) : Bytes × BlockHandle :=
  let offset := UInt64.ofNat file.length
  (file ++ encodeBlockWithTrailer X raw offset opts.checksumType opts.baseContextChecksum,
    ⟨offset,UInt64.ofNat raw.length⟩)

def flushDataBlock (file : Bytes) (indexBuilder : IndexBlockBuilder)
    (blockBuilder : BlockBuilder) (lastKey : Bytes) : Exec (Bytes × IndexBlockBuilder) := do
  if blockBuilder.isEmpty then
    pure (file,indexBuilder)
  else
    let (file,handle) := writeBlock X opts file blockBuilder.finish
    let indexBuilder ← indexBuilder.add lastKey handle
    pure (file,indexBuilder)

/-- One turn of the loop over the entries. -/
def addEntry (st : SstState) (e : Entry) : Exec SstState := do
  let (key,value) := e
  let rawKeySize := st.rawKeySize+UInt64.ofNat key.length
  let rawValueSize := st.rawValueSize+UInt64.ofNat value.length
  let blockBuilder ← st.blockBuilder.add (key,value)
  if blockBuilder.currentSizeEstimate ≥ targetBlockSize then
    let fresh ← BlockBuilder.new dataBlockRestartInterval
    let (file,indexBuilder) ← flushDataBlock X opts st.file st.indexBuilder blockBuilder key
    pure ⟨file,indexBuilder,fresh,none,rawKeySize,rawValueSize⟩
  else
    pure ⟨st.file,st.indexBuilder,blockBuilder,some key,rawKeySize,rawValueSize⟩

def flushPending (st : SstState) : Exec (Bytes × IndexBlockBuilder) :=
  match st.pendingLastKey with
  | none => pure (st.file,st.indexBuilder)
  | some lastKey => flushDataBlock X opts st.file st.indexBuilder st.blockBuilder lastKey

def writeDataBlocks (entries : List Entry) :
    Exec (Bytes × IndexBlockBuilder × UInt64 × UInt64) := do
  let indexBuilder ← IndexBlockBuilder.new indexBlockRestartInterval
  let blockBuilder ← BlockBuilder.new dataBlockRestartInterval
  let st ← entries.foldlM (addEntry X opts) ⟨[],indexBuilder,blockBuilder,none,0,0⟩
  let (file,indexBuilder) ← flushPending X opts st
  pure (file,indexBuilder,st.rawKeySize,st.rawValueSize)

/-- The entries as they are written: in external mode under rewritten keys. -/
def writtenEntries (entries : List Entry) : Exec (List Entry) :=
  match opts.externalSstGlobalSeqno with
  | none => pure entries
  | some _ => entries.mapM (fun e => do
      let k ← zeroOutSeqno e.1
      pure (k,e.2))

def written (entries : List Entry) : List Entry :=
  match opts.externalSstGlobalSeqno with
  | none => entries
  | some _ => entries.map (fun e => (userKey e.1 ++ leBytes 8 (packed e.1 &&& 0xff),e.2))

theorem writtenEntries_ok {entries : List Entry} (h : ∀ e ∈ entries, WellFormed e.1) :
    writtenEntries opts entries = .ok (written opts entries) := by
  unfold writtenEntries written
  cases opts.externalSstGlobalSeqno with
  | none => rfl
  | some g =>
    refine mapM_ok (fun e he => ?_)
    have hk : 8 ≤ e.1.length := h e he
    simp only [zeroOutSeqno,checkedSub_of_le hk,ok_bind,pure_eq_ok]
    rfl

def writtenEntry (e : Entry) : Entry :=
  match opts.externalSstGlobalSeqno with
  | none => e
  | some _ => (userKey e.1 ++ leBytes 8 (packed e.1 &&& 0xff),e.2)

theorem written_eq_map (entries : List Entry) :
    written opts entries = entries.map (writtenEntry opts) := by
  unfold written writtenEntry
  cases opts.externalSstGlobalSeqno with
  | none => exact (List.map_id' entries).symm
  | some g => rfl

@[simp] theorem writtenEntry_snd (e : Entry) : (writtenEntry opts e).2 = e.2 := by
  unfold writtenEntry
  cases opts.externalSstGlobalSeqno <;> rfl

theorem writtenEntry_key (e : Entry) :
    userKey (writtenEntry opts e).1 = userKey e.1 ∧
      valueType (writtenEntry opts e).1 = valueType e.1 := by
  unfold writtenEntry
  cases opts.externalSstGlobalSeqno with
  | none => exact ⟨rfl,rfl⟩
  | some g =>
    have hlt : packed e.1 &&& 0xff < 256^8 :=
      Nat.lt_of_le_of_lt Nat.and_le_right (by decide)
    have hp : packed (userKey e.1 ++ leBytes 8 (packed e.1 &&& 0xff)) = packed e.1 &&& 0xff := by
      rw [packed_append _ _ (leBytes_length _ _),ofLe_leBytes_of_lt hlt]
    refine ⟨userKey_append _ _ (leBytes_length _ _),?_⟩
    simp only [valueType,hp,Nat.and_assoc,Nat.and_self]

theorem writtenEntry_wf {e : Entry} (h : WellFormed e.1) :
    (writtenEntry opts e).1.length = e.1.length := by
  unfold writtenEntry
  cases opts.externalSstGlobalSeqno with
  | none => rfl
  | some g =>
    have hk : 8 ≤ e.1.length := h
    simp only [List.length_append,leBytes_length,userKey,List.length_take,numInternalBytes]
    omega

theorem writtenEntry_twice (e : Entry) :
    writtenEntry opts (writtenEntry opts e) = writtenEntry opts e := by
  unfold writtenEntry
  cases opts.externalSstGlobalSeqno with
  | none => rfl
  | some g =>
    have hlt : packed e.1 &&& 0xff < 256^8 :=
      Nat.lt_of_le_of_lt Nat.and_le_right (by decide)
    simp only [userKey_append _ _ (leBytes_length _ _),packed_append _ _ (leBytes_length _ _),
      ofLe_leBytes_of_lt hlt,Nat.and_assoc,Nat.and_self]

theorem written_wf {es : List Entry} (h : ∀ e ∈ es, WellFormed e.1) :
    ∀ e ∈ written opts es, WellFormed e.1 := by
  intro e he
  rw [written_eq_map] at he
  obtain ⟨x,hx,rfl⟩ := List.mem_map.mp he
  rw [WellFormed,writtenEntry_wf opts (h x hx)]
  exact h x hx

theorem totalBytes_written {es : List Entry}
    (h : ∀ e ∈ es, WellFormed e.1) : totalBytes (written opts es) = totalBytes es := by
  rw [written_eq_map,totalBytes,totalBytes,List.map_map]
  congr 1
  refine List.map_congr_left (fun e he => ?_)
  simp only [Function.comp,writtenEntry_wf opts (h e he),writtenEntry_snd]

theorem writtenEntries_none (h : opts.externalSstGlobalSeqno = none) (entries : List Entry) :
    writtenEntries opts entries = .ok entries := by
  simp [writtenEntries,h]

theorem written_none (h : opts.externalSstGlobalSeqno = none) (entries : List Entry) :
    written opts entries = entries := by
  rw [written,h]

def buildSst (entries : List Entry) : Exec Bytes := do
  let entries ← writtenEntries opts entries
  let (file,indexBuilder,rawKeySize,rawValueSize) ← writeDataBlocks X opts entries
  let dataSize := UInt64.ofNat file.length
  let (file,indexHandle) := writeBlock X opts file indexBuilder.finish
  let propsRaw ← buildPropertiesBlock {
    numEntries := UInt64.ofNat entries.length
    rawKeySize
    rawValueSize
    dataSize
    indexSize := indexHandle.size
    comparatorName := opts.comparatorName
    columnFamilyId := opts.columnFamilyId
    columnFamilyName := opts.columnFamilyName
    externalSstGlobalSeqno := opts.externalSstGlobalSeqno }
  let (file,propsHandle) := writeBlock X opts file propsRaw
  let metaindexRaw ← buildMetaindexBlock
    [(propertiesBlockName,propsHandle),(indexBlockName,indexHandle)]
  let (file,metaindexHandle) := writeBlock X opts file metaindexRaw
  let footerOffset := UInt64.ofNat file.length
  let footerBytes ← encodeFooterV6Plus X formatVersion opts.checksumType metaindexHandle
    opts.baseContextChecksum footerOffset
  pure (file ++ footerBytes)

def dataBlock (es : List Entry) : BlockBuilder :=
  BlockBuilder.ofEntries dataBlockRestartInterval es

def blockFull (es : List Entry) : Bool :=
  decide ((dataBlock es).currentSizeEstimate ≥ targetBlockSize)

/-- The runs of entries that share a data block. -/
def dataBlocks (entries : List Entry) : List (List Entry) := Greedy.cut blockFull [] entries

def lastKeyOf (es : List Entry) : Option Bytes := es.getLast?.map Prod.fst

def layOut (file : Bytes) : List (List Entry) → Bytes × List (Bytes × BlockHandle)
  | [] => (file,[])
  | es :: runs =>
    let (file,handle) := writeBlock X opts file (dataBlock es).finish
    let (file,index) := layOut file runs
    (file,((lastKeyOf es).getD [],handle) :: index)

theorem written_fits {entries : List Entry} (h : ∀ e ∈ entries, WellFormed e.1)
    (hf : ∀ e ∈ entries, Fits e) : ∀ e ∈ written opts entries, Fits e := by
  unfold written
  cases opts.externalSstGlobalSeqno with
  | none => exact hf
  | some g =>
    intro e he
    obtain ⟨x,hx,rfl⟩ := List.mem_map.mp he
    have hk : 8 ≤ x.1.length := h x hx
    refine ⟨?_,(hf x hx).2⟩
    have hlen := (hf x hx).1
    simp only [List.length_append,leBytes_length,userKey,List.length_take,numInternalBytes]
    omega

theorem dataBlock_not_empty {es : List Entry} (h : es ≠ []) : (dataBlock es).isEmpty = false := by
  have hs := (BlockBuilder.ofEntries_sizes dataBlockRestartInterval es).1
  have hl : 0 < es.length := List.length_pos_of_ne_nil h
  rw [BlockBuilder.isEmpty,List.isEmpty_eq_false_iff,dataBlock]
  intro hn
  rw [hn,List.length_nil] at hs
  omega

theorem flushDataBlock_ok {ib : IndexBlockBuilder} {hs : List (Bytes × BlockHandle)}
    (h : ib.Lists hs) (file : Bytes) {es : List Entry} (hne : es ≠ []) (key : Bytes) :
    ∃ ib', flushDataBlock X opts file ib (dataBlock es) key =
        .ok ((writeBlock X opts file (dataBlock es).finish).1,ib') ∧
      ib'.Lists (hs ++ [(key,(writeBlock X opts file (dataBlock es).finish).2)]) := by
  obtain ⟨ib',hadd,hl⟩ := h.add key (writeBlock X opts file (dataBlock es).finish).2
  refine ⟨ib',?_,hl⟩
  simp only [flushDataBlock,dataBlock_not_empty hne,Bool.false_eq_true,↓reduceIte,hadd,ok_bind,
    pure_eq_ok]

theorem dataBlock_add (run : List Entry) (x : Entry) :
    (dataBlock run).add (x.1,x.2) = .ok (dataBlock (run ++ [x])) := by
  have hready := BlockBuilder.ofEntries_ready (show 1 ≤ dataBlockRestartInterval by decide) run
  rw [dataBlock,hready.add,← BlockBuilder.ofEntries_snoc]
  rfl

theorem flushPending_layOut (run : List Entry) {st : SstState} {hs : List (Bytes × BlockHandle)}
    (hb : st.blockBuilder = dataBlock run) (hp : st.pendingLastKey = lastKeyOf run)
    (hi : st.indexBuilder.Lists hs) : ∃ ib', flushPending X opts st =
        .ok ((layOut X opts st.file (Greedy.cut blockFull run [])).1,ib') ∧
      ib'.Lists (hs ++ (layOut X opts st.file (Greedy.cut blockFull run [])).2) := by
  cases hr : run with
  | nil =>
    rw [hr] at hp
    exact ⟨st.indexBuilder,by simp [flushPending,hp,lastKeyOf,Greedy.cut,layOut],
      by simpa [Greedy.cut,layOut] using hi⟩
  | cons e es =>
    rw [← hr]
    have hne : run ≠ [] := by simp [hr]
    obtain ⟨k,hk⟩ : ∃ k, lastKeyOf run = some k := by
      rw [lastKeyOf,List.getLast?_eq_getLast_of_ne_nil hne]
      exact ⟨_,rfl⟩
    obtain ⟨ib',hflush,hl⟩ := flushDataBlock_ok X opts hi st.file hne k
    have hcut : Greedy.cut blockFull run [] = [run] := by simp [Greedy.cut,hne]
    refine ⟨ib',?_,?_⟩
    · simp only [flushPending,hp,hk,hb,hflush,hcut,layOut]
    · simpa only [hcut,layOut,hk,Option.getD_some] using hl

/-- The loop cuts the entries into runs and lays their blocks out one after another. -/
theorem addEntries_layOut (xs run : List Entry) (st : SstState)
    {hs : List (Bytes × BlockHandle)} (hb : st.blockBuilder = dataBlock run)
    (hp : st.pendingLastKey = lastKeyOf run) (hi : st.indexBuilder.Lists hs) :
    ∃ st' ib', xs.foldlM (addEntry X opts) st = .ok st' ∧
      flushPending X opts st' =
        .ok ((layOut X opts st.file (Greedy.cut blockFull run xs)).1,ib') ∧
      ib'.Lists (hs ++ (layOut X opts st.file (Greedy.cut blockFull run xs)).2) := by
  induction xs generalizing run st hs with
  | nil =>
    obtain ⟨ib',hflush,hl⟩ := flushPending_layOut X opts run hb hp hi
    exact ⟨st,ib',rfl,hflush,hl⟩
  | cons x xs ih =>
    have hadd : st.blockBuilder.add (x.1,x.2) = .ok (dataBlock (run ++ [x])) := by
      rw [hb,dataBlock_add]
    have hkey : lastKeyOf (run ++ [x]) = some x.1 := by simp [lastKeyOf]
    by_cases hfull : (dataBlock (run ++ [x])).currentSizeEstimate ≥ targetBlockSize
    · have hf : blockFull (run ++ [x]) = true := by simpa [blockFull] using hfull
      have hcut : Greedy.cut blockFull run (x :: xs) =
          (run ++ [x]) :: Greedy.cut blockFull [] xs := by
        rw [Greedy.cut,if_pos hf]
      have hnew : BlockBuilder.new dataBlockRestartInterval = .ok (dataBlock []) := rfl
      obtain ⟨ib,hflush,hl⟩ := flushDataBlock_ok X opts hi st.file
        (show run ++ [x] ≠ [] by simp) x.1
      obtain ⟨st',ib',hfold,hpend,hlists⟩ := ih []
        ⟨(writeBlock X opts st.file (dataBlock (run ++ [x])).finish).1,ib,dataBlock [],none,
          st.rawKeySize+UInt64.ofNat x.1.length,st.rawValueSize+UInt64.ofNat x.2.length⟩
        rfl rfl hl
      refine ⟨st',ib',?_,?_,?_⟩
      · simp only [List.foldlM_cons,addEntry,hadd,ok_bind,hfull,↓reduceIte,hnew,hflush,pure_eq_ok,
          hfold]
      · simp only [hcut,layOut,hpend]
      · simpa only [hcut,layOut,hkey,Option.getD_some,List.append_assoc,List.singleton_append]
          using hlists
    · have hf : ¬ blockFull (run ++ [x]) = true := by simpa [blockFull] using hfull
      have hcut : Greedy.cut blockFull run (x :: xs) = Greedy.cut blockFull (run ++ [x]) xs := by
        rw [Greedy.cut,if_neg hf]
      obtain ⟨st',ib',hfold,hpend,hlists⟩ := ih (run ++ [x])
        ⟨st.file,st.indexBuilder,dataBlock (run ++ [x]),some x.1,
          st.rawKeySize+UInt64.ofNat x.1.length,st.rawValueSize+UInt64.ofNat x.2.length⟩
        rfl hkey.symm hi
      refine ⟨st',ib',?_,by rw [hcut]; exact hpend,by rw [hcut]; exact hlists⟩
      simp only [List.foldlM_cons,addEntry,hadd,ok_bind,hfull,↓reduceIte,pure_eq_ok,hfold]

theorem writeDataBlocks_layOut (entries : List Entry) :
    ∃ ib rawKeySize rawValueSize, writeDataBlocks X opts entries =
        .ok ((layOut X opts [] (dataBlocks entries)).1,ib,rawKeySize,rawValueSize) ∧
      ib.Lists (layOut X opts [] (dataBlocks entries)).2 := by
  obtain ⟨ib,hib,hl⟩ := IndexBlockBuilder.new_lists
  obtain ⟨st,ib',hfold,hpend,hlists⟩ := addEntries_layOut X opts entries []
    ⟨[],ib,dataBlock [],none,0,0⟩ rfl rfl hl
  have hnew : BlockBuilder.new dataBlockRestartInterval = .ok (dataBlock []) := rfl
  refine ⟨ib',st.rawKeySize,st.rawValueSize,?_,hlists⟩
  simp only [writeDataBlocks,indexBlockRestartInterval,hib,ok_bind,hnew,hfold,hpend,pure_eq_ok,
    dataBlocks]

def keyBytes (es : List Entry) : Nat := (es.map (fun e => e.1.length)).sum
def valueBytes (es : List Entry) : Nat := (es.map (fun e => e.2.length)).sum

theorem addEntry_sums {st st' : SstState} {e : Entry} (h : addEntry X opts st e = .ok st') :
    st'.rawKeySize = st.rawKeySize+UInt64.ofNat e.1.length ∧
      st'.rawValueSize = st.rawValueSize+UInt64.ofNat e.2.length := by
  obtain ⟨b,-,h⟩ := bind_eq_ok h
  split at h
  · obtain ⟨fresh,-,h⟩ := bind_eq_ok h
    obtain ⟨flushed,-,h⟩ := bind_eq_ok h
    cases h
    exact ⟨rfl,rfl⟩
  · cases h
    exact ⟨rfl,rfl⟩

theorem addEntries_sums {xs : List Entry} {st st' : SstState}
    (h : xs.foldlM (addEntry X opts) st = .ok st') :
    st'.rawKeySize = st.rawKeySize+UInt64.ofNat (keyBytes xs) ∧
      st'.rawValueSize = st.rawValueSize+UInt64.ofNat (valueBytes xs) := by
  induction xs generalizing st with
  | nil =>
    cases h
    simp [keyBytes,valueBytes]
  | cons x xs ih =>
    rw [List.foldlM_cons] at h
    obtain ⟨mid,hstep,h⟩ := bind_eq_ok h
    obtain ⟨hk,hv⟩ := addEntry_sums X opts hstep
    obtain ⟨hks,hvs⟩ := ih h
    refine ⟨?_,?_⟩
    · rw [hks,hk,UInt64.add_assoc,← UInt64.ofNat_add]
      rfl
    · rw [hvs,hv,UInt64.add_assoc,← UInt64.ofNat_add]
      rfl

theorem writeDataBlocks_sums {entries : List Entry} {file : Bytes} {ib : IndexBlockBuilder}
    {rawKeySize rawValueSize : UInt64}
    (h : writeDataBlocks X opts entries = .ok (file,ib,rawKeySize,rawValueSize)) :
    rawKeySize = UInt64.ofNat (keyBytes entries) ∧
      rawValueSize = UInt64.ofNat (valueBytes entries) := by
  obtain ⟨first,-,h⟩ := bind_eq_ok h
  obtain ⟨block,-,h⟩ := bind_eq_ok h
  obtain ⟨st,hfold,h⟩ := bind_eq_ok h
  obtain ⟨pending,-,h⟩ := bind_eq_ok h
  obtain ⟨hk,hv⟩ := addEntries_sums X opts hfold
  simp only [pure_eq_ok,Except.ok.injEq,Prod.mk.injEq] at h
  rw [← h.2.2.1,← h.2.2.2,hk,hv,UInt64.zero_add,UInt64.zero_add]
  exact ⟨rfl,rfl⟩

/-- A finished file of the entries `es`, taken apart. -/
structure Image (es : List Entry) where
  index : IndexBlockBuilder
  props : Bytes
  footer : Bytes
  lists : index.Lists (layOut X opts [] (dataBlocks es)).2

namespace Image
variable {X opts} {es : List Entry}

def indexed (i : Image X opts es) : Bytes × BlockHandle :=
  writeBlock X opts (layOut X opts [] (dataBlocks es)).1 i.index.finish

def propped (i : Image X opts es) : Bytes × BlockHandle := writeBlock X opts i.indexed.1 i.props

def metaRaw (i : Image X opts es) : Bytes :=
  (BlockBuilder.ofEntries 1 (metaEntries i.propped.2 i.indexed.2)).finish

def metaed (i : Image X opts es) : Bytes × BlockHandle :=
  writeBlock X opts i.propped.1 i.metaRaw

def bytes (i : Image X opts es) : Bytes := i.metaed.1 ++ i.footer

end Image

def propertiesOf (es : List Entry) (dataSize indexSize : UInt64) : PropertiesInput where
  numEntries := UInt64.ofNat es.length
  rawKeySize := UInt64.ofNat (keyBytes es)
  rawValueSize := UInt64.ofNat (valueBytes es)
  dataSize
  indexSize
  comparatorName := opts.comparatorName
  columnFamilyId := opts.columnFamilyId
  columnFamilyName := opts.columnFamilyName
  externalSstGlobalSeqno := opts.externalSstGlobalSeqno

def Image.input {es : List Entry} (i : Image X opts es) : PropertiesInput :=
  propertiesOf opts es (UInt64.ofNat (layOut X opts [] (dataBlocks es)).1.length) i.indexed.2.size

structure Image.Written {es : List Entry} (i : Image X opts es) : Prop where
  footer_eq : encodeFooterV6Plus X formatVersion opts.checksumType i.metaed.2
    opts.baseContextChecksum (UInt64.ofNat i.metaed.1.length) = .ok i.footer
  props_length : i.props.length ≤ 1100+13*((strBytes opts.comparatorName).length+
    (strBytes opts.columnFamilyName).length)

theorem buildSst_accounts {entries es : List Entry} (h : writtenEntries opts entries = .ok es) :
    ∃ i : Image X opts es, buildSst X opts entries = .ok i.bytes ∧ i.Written X opts ∧
      buildPropertiesBlock (i.input X opts) = .ok i.props := by
  obtain ⟨ib,rawKeySize,rawValueSize,hw,hl⟩ := writeDataBlocks_layOut X opts es
  obtain ⟨rfl,rfl⟩ := writeDataBlocks_sums X opts hw
  generalize hin : writeBlock X opts (layOut X opts [] (dataBlocks es)).1 ib.finish = indexed
  generalize hpi : propertiesOf opts es
    (UInt64.ofNat (layOut X opts [] (dataBlocks es)).1.length) indexed.2.size = input
  obtain ⟨props,hprops⟩ : ∃ props, buildPropertiesBlock input = .ok props :=
    ⟨_,buildNamedBlock_ok (by decide) _⟩
  have hmeta := buildMetaindexBlock_ok (writeBlock X opts indexed.1 props).2 indexed.2
  generalize hraw : (BlockBuilder.ofEntries 1 (metaEntries
    (writeBlock X opts indexed.1 props).2 indexed.2)).finish = metaRaw at hmeta
  have hsize : (writeBlock X opts (writeBlock X opts indexed.1 props).1 metaRaw).2.size.toNat <
      2^32 := by
    have hlt := metaindex_length (writeBlock X opts indexed.1 props).2 indexed.2
    rw [hraw] at hlt
    simp only [writeBlock,UInt64.toNat_ofNat']
    omega
  have hfooter := encodeFooterV6Plus_ok X opts.checksumType opts.baseContextChecksum
    (UInt64.ofNat (writeBlock X opts (writeBlock X opts indexed.1 props).1 metaRaw).1.length) hsize
  have hlen := buildPropertiesBlock_length hprops
  subst hin hraw
  rw [← hpi] at hlen
  refine ⟨⟨ib,props,_,hl⟩,?_,⟨hfooter,hlen⟩,by rw [← hprops,← hpi]; rfl⟩
  rw [propertiesOf] at hpi
  simp only [buildSst,h,ok_bind,hw,hpi,hprops,hmeta,formatVersion,hfooter,pure_eq_ok]
  rfl

theorem buildSst_image {entries es : List Entry} (h : writtenEntries opts entries = .ok es) :
    ∃ i : Image X opts es, buildSst X opts entries = .ok i.bytes ∧ i.Written X opts := by
  obtain ⟨i,hb,hw,-⟩ := buildSst_accounts X opts h
  exact ⟨i,hb,hw⟩

end

end SstCompactor
