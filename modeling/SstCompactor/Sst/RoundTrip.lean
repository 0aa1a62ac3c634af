import SstCompactor.Format.SstBuilder
import SstCompactor.Sst.Reader

/-!
Reading back what `build_sst` writes. The proof goes over any way of fetching blocks that
gives back what `writeBlock` put down, so that it serves both readers.
-/

set_option autoImplicit false

namespace SstCompactor
open FixedWidth

section
variable (X : Crates) (opts : SstBuilderOptions)

theorem writeBlock_fst (file raw : Bytes) : (writeBlock X opts file raw).1 = file ++
    encodeBlockWithTrailer X raw (UInt64.ofNat file.length) opts.checksumType
      opts.baseContextChecksum := rfl

theorem encodeBlockWithTrailer_length (raw : Bytes) (offset : UInt64) (ty : ChecksumType)
    (base : UInt32) : (encodeBlockWithTrailer X raw offset ty base).length = raw.length+5 := by
  simp [encodeBlockWithTrailer]

theorem writeBlock_length (file raw : Bytes) :
    (writeBlock X opts file raw).1.length = file.length+raw.length+5 := by
  rw [writeBlock_fst,List.length_append,encodeBlockWithTrailer_length]
  omega

theorem writeBlock_handle (file raw : Bytes) (h : file.length+raw.length < 2^64) :
    (writeBlock X opts file raw).2.offset.toNat = file.length ∧
      (writeBlock X opts file raw).2.size.toNat = raw.length :=
  ⟨toNat_ofNat64 (by omega),toNat_ofNat64 (by omega)⟩

structure Serves (fetch : BlockHandle → Exec Bytes) (bytes : Bytes) : Prop where
  written : ∀ file raw post, bytes = (writeBlock X opts file raw).1 ++ post →
    fetch (writeBlock X opts file raw).2 = .ok raw
  /-- Nothing can be read from a block of no bytes. -/
  stray : ∀ raw, fetch ⟨0,0⟩ = .ok raw → raw = []

theorem decompress_nil {ty : CompressionType} {out : Bytes} (h : decompress X ty [] = .ok out) :
    out = [] := by
  have hsplit : splitUncompressedSizePrefix [] =
      .error (.err "failed to read uncompressed-size prefix") := rfl
  cases ty with
  | noCompression => simpa [decompress] using h.symm
  | snappy =>
    cases hs : X.snappy [] with
    | error e => cases e <;> simp [decompress,hs,codecResult] at h
    | ok v =>
      have hv := X.snappy_nil v hs
      simp only [decompress,hs,codecResult,Except.ok.injEq] at h
      rw [← h,hv]
  | lz4 => simp [decompress,hsplit] at h
  | lz4Hc => simp [decompress,hsplit] at h
  | zstd => simp [decompress,hsplit] at h
  | zlib => simp [decompress] at h
  | bzip2 => simp [decompress] at h
  | xpress => simp [decompress] at h

theorem decodeBlockContents_nil {buf raw : Bytes} {offset : UInt64} {ty : ChecksumType}
    {base : UInt32} (h : decodeBlockContents X buf ⟨offset,0⟩ ty base = .ok raw) : raw = [] := by
  have htotal : checkedAdd 64 (0 : UInt64).toNat blockTrailerSize = .ok 5 := rfl
  have hraw : slice buf 0 (0 : UInt64).toNat = .ok [] := by simp [slice,getRange]
  simp only [decodeBlockContents,htotal,ok_bind,hraw] at h
  split at h
  · simp at h
  · obtain ⟨trailer,-,h⟩ := bind_eq_ok h
    obtain ⟨compByte,-,h⟩ := bind_eq_ok h
    obtain ⟨stored,-,h⟩ := bind_eq_ok h
    split at h
    · simp at h
    · obtain ⟨compression,-,h⟩ := bind_eq_ok h
      exact decompress_nil X h

theorem parseBlock_nil : parseBlock [] =
    .error (.err "block too small to contain restart trailer") := rfl

theorem readAt_written {reader : FileReader} {file raw post : Bytes}
    (hb : reader.contents = (writeBlock X opts file raw).1 ++ post) :
    reader.readAt file.length (raw.length+5) = .ok (encodeBlockWithTrailer X raw
      (UInt64.ofNat file.length) opts.checksumType opts.baseContextChecksum) := by
  have hg := getRange_at (d:=reader.contents) (p:=file) (q:=post)
    (a:=file.length) (b:=file.length+(raw.length+5)) hb rfl
    (by rw [encodeBlockWithTrailer_length])
  rw [FileReader.readAt,hg]

theorem readBlockContents_serves (reader : FileReader) :
    Serves X opts (readBlockContents X reader opts.checksumType opts.baseContextChecksum)
      reader.contents where
  written := by
    intro file raw post hb
    have hlen := reader.length_lt
    rw [hb,List.length_append,writeBlock_length] at hlen
    obtain ⟨ho,hs⟩ := writeBlock_handle X opts file raw (by omega)
    have hfetch := decodeBlockContents_encode X raw (UInt64.ofNat file.length) opts.checksumType
      opts.baseContextChecksum (by omega)
    rw [readBlockContents,blockReadLen,hs,blockTrailerSize,checkedAdd_of_lt (by omega),ok_bind,ho,
      readAt_written X opts hb]
    exact hfetch
  stray := by
    intro raw h
    obtain ⟨len,-,h⟩ := bind_eq_ok h
    obtain ⟨buf,-,h⟩ := bind_eq_ok h
    exact decodeBlockContents_nil X h

theorem layOut_extends (file : Bytes) (runs : List (List Entry)) :
    ∃ post, (layOut X opts file runs).1 = file ++ post := by
  induction runs generalizing file with
  | nil => exact ⟨[],by simp [layOut]⟩
  | cons es runs ih =>
    obtain ⟨post,hp⟩ := ih (writeBlock X opts file (dataBlock es).finish).1
    have hl : (layOut X opts file (es :: runs)).1 =
        (layOut X opts (writeBlock X opts file (dataBlock es).finish).1 runs).1 := rfl
    exact ⟨_,by rw [hl,hp,writeBlock_fst,List.append_assoc]⟩

theorem layOut_keys (file : Bytes) (runs : List (List Entry)) :
    (layOut X opts file runs).2.map Prod.fst =
      runs.map (fun es => (lastKeyOf es).getD []) := by
  induction runs generalizing file with
  | nil => rfl
  | cons es runs ih => simp only [layOut,List.map_cons,ih]

/-- A block that is not full has few entries, so a run has few restart points. -/
theorem run_length {es : List Entry} (h : Greedy.Run blockFull es) : es.length ≤ 1366 := by
  obtain ⟨i,x,rfl,hi⟩ := h
  by_cases hn : i = []
  · simp [hn]
  · have hf : ¬ (dataBlock i).currentSizeEstimate ≥ targetBlockSize := of_decide_eq_false (hi hn)
    have hs := (BlockBuilder.ofEntries_sizes dataBlockRestartInterval i).1
    simp only [dataBlock,BlockBuilder.currentSizeEstimate,targetBlockSize] at hf
    simp only [List.length_append,List.length_singleton]
    omega

theorem dataBlock_reads {es : List Entry} (hr : Greedy.Run blockFull es)
    (hf : ∀ e ∈ es, Fits e) (hl : (dataBlock es).finish.length < 2^63) :
    ∃ parsed, parseBlock (dataBlock es).finish = .ok parsed ∧
      forEachEntry parsed = (es,.ok ()) := by
  have hs := (BlockBuilder.ofEntries_sizes dataBlockRestartInterval es).2
  have hlen := run_length hr
  exact forEachEntry_ofEntries hf (by omega) hl

variable {X opts} in
theorem Serves.first_run {fetch : BlockHandle → Exec Bytes} {bytes : Bytes}
    (hs : Serves X opts fetch bytes) (hl : bytes.length < 2^63) {file post : Bytes}
    {es : List Entry} {runs : List (List Entry)}
    (hb : bytes = (layOut X opts file (es :: runs)).1 ++ post)
    (hr : Greedy.Run blockFull es ∧ ∀ e ∈ es, Fits e) :
    ∃ parsed,
      fetch (writeBlock X opts file (dataBlock es).finish).2 = .ok (dataBlock es).finish ∧
      parseBlock (dataBlock es).finish = .ok parsed ∧ forEachEntry parsed = (es,.ok ()) := by
  obtain ⟨mid,hmid⟩ := layOut_extends X opts (writeBlock X opts file (dataBlock es).finish).1 runs
  have hb' : bytes = (writeBlock X opts file (dataBlock es).finish).1 ++ (mid ++ post) := by
    rw [hb,← List.append_assoc,← hmid]
    rfl
  obtain ⟨parsed,hparse,hread⟩ := dataBlock_reads hr.1 hr.2 (by
    have := congrArg List.length hb'
    rw [List.length_append,writeBlock_length] at this
    omega)
  exact ⟨parsed,hs.written _ _ _ hb',hparse,hread⟩

variable {X opts} in
theorem Serves.visitBlocks_layOut {fetch : BlockHandle → Exec Bytes} {bytes : Bytes}
    (hs : Serves X opts fetch bytes) (hl : bytes.length < 2^63) (more : List BlockHandle)
    (file post : Bytes) (runs : List (List Entry))
    (hb : bytes = (layOut X opts file runs).1 ++ post)
    (hr : ∀ es ∈ runs, Greedy.Run blockFull es ∧ ∀ e ∈ es, Fits e) :
    visitBlocks fetch ((layOut X opts file runs).2.map Prod.snd ++ more) =
      (runs.flatten ++ (visitBlocks fetch more).1,(visitBlocks fetch more).2) := by
  induction runs generalizing file with
  | nil => simp [layOut]
  | cons es runs ih =>
    obtain ⟨parsed,hfetch,hparse,hread⟩ := hs.first_run hl hb (hr es (by simp))
    have hrest := ih (writeBlock X opts file (dataBlock es).finish).1 hb
      (fun x hx => hr x (by simp [hx]))
    simp only [layOut,List.map_cons,List.cons_append,visitBlocks,hfetch,ok_bind,hparse,hread,
      hrest,List.flatten_cons,List.append_assoc]

theorem Serves.visitBlocks_stray {fetch : BlockHandle → Exec Bytes} {bytes : Bytes}
    (hs : Serves X opts fetch bytes) (more : List BlockHandle) :
    ∃ e, (visitBlocks fetch (⟨0,0⟩ :: more)).2 = .error e := by
  cases hf : fetch ⟨0,0⟩ with
  | error e => exact ⟨e,by simp [visitBlocks,hf]⟩
  | ok raw =>
    rw [hs.stray raw hf] at hf
    exact ⟨.err "block too small to contain restart trailer",
      by simp only [visitBlocks,hf,ok_bind,parseBlock_nil]⟩

theorem dataBlocks_flatten (entries : List Entry) : (dataBlocks entries).flatten = entries := by
  simp [dataBlocks,Greedy.cut_flatten]

theorem dataBlocks_runs (entries : List Entry) (hf : ∀ e ∈ entries, Fits e) :
    ∀ es ∈ dataBlocks entries, Greedy.Run blockFull es ∧ ∀ e ∈ es, Fits e := by
  intro es hes
  refine ⟨Greedy.cut_nil_run _ entries es hes,fun e he => hf e ?_⟩
  rw [← dataBlocks_flatten entries]
  exact List.mem_flatten.mpr ⟨es,hes,he⟩

def dataBlockCount (entries : List Entry) : Nat := (dataBlocks entries).length

theorem layOut_keys_fit {runs : List (List Entry)}
    (hr : ∀ es ∈ runs, Greedy.Run blockFull es ∧ ∀ e ∈ es, Fits e) (file : Bytes) :
    ∀ e ∈ (layOut X opts file runs).2, e.1.length < 2^32 := by
  intro e he
  have hk : e.1 ∈ runs.map (fun es => (lastKeyOf es).getD []) := by
    rw [← layOut_keys X opts file runs]
    exact List.mem_map_of_mem he
  obtain ⟨es,hes,heq⟩ := List.mem_map.mp hk
  obtain ⟨hrun,hfit⟩ := hr es hes
  obtain ⟨i,x,rfl,-⟩ := hrun
  have hx : (lastKeyOf (i ++ [x])).getD [] = x.1 := by simp [lastKeyOf]
  rw [← heq,hx]
  exact (hfit x (by simp)).1

namespace Image
variable {X opts} {es : List Entry}

theorem lengths (i : Image X opts es) :
    i.indexed.1.length =
        (layOut X opts [] (dataBlocks es)).1.length+i.index.finish.length+5 ∧
      i.propped.1.length = i.indexed.1.length+i.props.length+5 ∧
      i.metaed.1.length = i.propped.1.length+i.metaRaw.length+5 ∧
      i.bytes.length = i.metaed.1.length+i.footer.length :=
  ⟨writeBlock_length X opts _ _,writeBlock_length X opts _ _,writeBlock_length X opts _ _,
    List.length_append⟩

theorem metaed_size (i : Image X opts es) : i.metaed.2.size.toNat < 2^32 := by
  have hraw : i.metaRaw.length < 150 := metaindex_length _ _
  rw [metaed,writeBlock,toNat_ofNat64 (by omega)]
  omega

theorem footer_length (i : Image X opts es) (hw : i.Written X opts) : i.footer.length = 53 := by
  have he := hw.footer_eq
  rw [formatVersion,encodeFooterV6Plus_ok X opts.checksumType opts.baseContextChecksum
    (UInt64.ofNat i.metaed.1.length) i.metaed_size,Except.ok.injEq] at he
  rw [← he]
  exact footerBytes_length _ _ _ _ _

theorem tail_slice (i : Image X opts es) (hw : i.Written X opts) :
    slice i.bytes (i.bytes.length-footerTailLen) i.bytes.length = .ok i.footer := by
  have hfl := i.footer_length hw
  have hlen := i.lengths
  have h53 : footerTailLen = 53 := rfl
  exact slice_at (p:=i.metaed.1) (q:=[]) (by rw [List.append_nil]; rfl) (by omega) (by omega)

theorem footer_reads (i : Image X opts es) (hl : i.bytes.length < 2^63)
    (hw : i.Written X opts) :
    decodeFooter X i.footer (UInt64.ofNat i.bytes.length) =
      .ok ⟨blockBasedTableMagic,7,opts.checksumType,i.metaed.2,none,5,
        opts.baseContextChecksum⟩ := by
  obtain ⟨-,-,hm,hb⟩ := i.lengths
  rw [i.footer_length hw] at hb
  obtain ⟨ho,hs⟩ := writeBlock_handle X opts i.propped.1 i.metaRaw (by omega)
  refine (decodeFooter_encode X opts.checksumType i.metaed.2 opts.baseContextChecksum
    (UInt64.ofNat i.metaed.1.length) i.metaed_size ?_ ?_ hw.footer_eq).2
  · rw [toNat_ofNat64 (n:=i.metaed.1.length) (by omega),hm,metaed,ho,hs]
  · rw [toNat_ofNat64 (n:=i.metaed.1.length) (by omega),
      toNat_ofNat64 (n:=i.bytes.length) (by omega),hb]

theorem fetch_meta (i : Image X opts es) {fetch : BlockHandle → Exec Bytes}
    (hs : Serves X opts fetch i.bytes) : fetch i.metaed.2 = .ok i.metaRaw :=
  hs.written i.propped.1 i.metaRaw i.footer rfl

theorem served (i : Image X opts es) {reader : FileReader} (hr : reader.contents = i.bytes) :
    i.bytes.length < 2^63 ∧ Serves X opts
      (readBlockContents X reader opts.checksumType opts.baseContextChecksum) i.bytes := by
  rw [← hr]
  exact ⟨reader.length_lt,readBlockContents_serves X opts reader⟩

theorem bytes_extends (i : Image X opts es) : ∃ post, i.bytes = i.indexed.1 ++ post :=
  ⟨encodeBlockWithTrailer X i.props (UInt64.ofNat i.indexed.1.length) opts.checksumType
      opts.baseContextChecksum ++
    (encodeBlockWithTrailer X i.metaRaw (UInt64.ofNat i.propped.1.length) opts.checksumType
      opts.baseContextChecksum ++ i.footer),by
    rw [bytes,metaed,writeBlock_fst,propped,writeBlock_fst]
    simp only [List.append_assoc]⟩

theorem fetch_index (i : Image X opts es) {fetch : BlockHandle → Exec Bytes}
    (hs : Serves X opts fetch i.bytes) : fetch i.indexed.2 = .ok i.index.finish := by
  obtain ⟨post,hb⟩ := i.bytes_extends
  exact hs.written _ i.index.finish post hb

theorem meta_reads (i : Image X opts es) :
    ∃ parsed, parseBlock i.metaRaw = .ok parsed ∧
      forEachEntry parsed = (metaEntries i.propped.2 i.indexed.2,.ok ()) := by
  have hlen : i.metaRaw.length < 150 := metaindex_length _ _
  have hr := (BlockBuilder.ofEntries_sizes 1 (metaEntries i.propped.2 i.indexed.2)).2
  have hm : (metaEntries i.propped.2 i.indexed.2).length = 2 := rfl
  exact forEachEntry_ofEntries (metaEntries_fit _ _) (by omega)
    (by simp only [metaRaw] at hlen; omega)

/-- What stands in the index block: the last key and the handle of every data block, and with
2^32 of them a stray entry after these. -/
theorem index_lists (i : Image X opts es) (hl : i.bytes.length < 2^63)
    (hf : ∀ e ∈ es, Fits e) :
    ∃ parsed, parseBlock i.index.finish = .ok parsed ∧
      (dataBlockCount es < 2^32 →
        forEachIndexEntry parsed = ((layOut X opts [] (dataBlocks es)).2,.ok ())) ∧
      (2^32 ≤ dataBlockCount es → ∃ more outcome, forEachIndexEntry parsed =
        ((layOut X opts [] (dataBlocks es)).2 ++ strayEntry :: more,outcome)) := by
  have hcount : (layOut X opts [] (dataBlocks es)).2.length = dataBlockCount es := by
    have hk := congrArg List.length (layOut_keys X opts [] (dataBlocks es))
    simpa only [List.length_map,dataBlockCount] using hk
  have hfin : i.index.finish.length < 2^63 := by
    have hlen := i.lengths
    omega
  have hread := forEachIndexEntry_finish i.lists
    (layOut_keys_fit X opts (dataBlocks_runs es hf) []) hfin
  rwa [hcount] at hread

theorem bytes_layOut (i : Image X opts es) :
    ∃ post, i.bytes = (layOut X opts [] (dataBlocks es)).1 ++ post := by
  obtain ⟨post,hb⟩ := i.bytes_extends
  rw [indexed,writeBlock_fst,List.append_assoc] at hb
  exact ⟨_,hb⟩

/-- The data blocks come back if and only if there are fewer than 2^32 of them. -/
theorem index_reads (i : Image X opts es) (hl : i.bytes.length < 2^63) (hf : ∀ e ∈ es, Fits e)
    {fetch : BlockHandle → Exec Bytes} (hs : Serves X opts fetch i.bytes) :
    ∃ parsed, parseBlock i.index.finish = .ok parsed ∧
      (dataBlockCount es < 2^32 →
        ∃ handles, dataHandles parsed = .ok handles ∧ visitBlocks fetch handles = (es,.ok ())) ∧
      (2^32 ≤ dataBlockCount es →
        (∃ e, dataHandles parsed = .error e) ∨
        ∃ handles e, dataHandles parsed = .ok handles ∧
          (visitBlocks fetch handles).2 = .error e) := by
  obtain ⟨post,hb⟩ := i.bytes_layOut
  obtain ⟨parsed,hparse,hlow,hhigh⟩ := i.index_lists hl hf
  have hvisit := fun more =>
    hs.visitBlocks_layOut hl more [] _ (dataBlocks es) hb (dataBlocks_runs es hf)
  refine ⟨parsed,hparse,fun hlt => ⟨(layOut X opts [] (dataBlocks es)).2.map Prod.snd,?_,?_⟩,
    fun hge => ?_⟩
  · simp only [dataHandles,hlow hlt,ok_bind,pure_eq_ok]
  · have h := hvisit []
    simpa only [List.append_nil,visitBlocks,dataBlocks_flatten] using h
  · obtain ⟨more,outcome,hwalk⟩ := hhigh hge
    cases outcome with
    | error e => exact .inl ⟨e,by simp only [dataHandles,hwalk,error_bind]⟩
    | ok u =>
      obtain ⟨e,he⟩ := hs.visitBlocks_stray X opts (more.map Prod.snd)
      refine .inr ⟨((layOut X opts [] (dataBlocks es)).2 ++ strayEntry :: more).map Prod.snd,e,
        by simp only [dataHandles,hwalk,ok_bind,pure_eq_ok],?_⟩
      rw [List.map_append,List.map_cons,hvisit]
      exact he

end Image

theorem readFooter_tail {reader : FileReader} (hl : footerTailLen ≤ reader.contents.length) :
    ∃ tail, slice reader.contents (reader.contents.length-footerTailLen)
        reader.contents.length = .ok tail ∧
      readFooter X reader = decodeFooter X tail reader.fileSize := by
  have hsize := reader.fileSize_toNat
  have hn : ¬ reader.contents.length < footerTailLen := Nat.not_lt.mpr hl
  have hend : reader.contents.length-footerTailLen+footerTailLen = reader.contents.length :=
    Nat.sub_add_cancel hl
  obtain ⟨tail,ht⟩ : ∃ tail, getRange reader.contents
      (reader.contents.length-footerTailLen) reader.contents.length = some tail :=
    ⟨_,if_pos ⟨Nat.sub_le _ _,Nat.le_refl _⟩⟩
  refine ⟨tail,by rw [slice,ht],?_⟩
  simp only [readFooter,hsize,hn,↓reduceIte,FileReader.readAt,hend,ht,ioResult,ok_bind]

theorem decodeMetaValueHandle_metaValue (handle : BlockHandle) :
    decodeMetaValueHandle (metaValue handle) = some handle := by
  have h₁ := getVarint64_put [] (putVarint64 handle.size) handle.offset
  have h₂ := getVarint64_put (putVarint64 handle.offset) [] handle.size
  simp only [List.nil_append,List.append_nil,List.length_nil,Nat.zero_add] at h₁ h₂
  simp [decodeMetaValueHandle,decodeBlockHandle,metaValue,h₁,h₂]

theorem SstReader.findMetaHandle_index {parsed : ParsedBlock} {props index : BlockHandle}
    (h : SstCompactor.forEachEntry parsed = (metaEntries props index,.ok ())) :
    findMetaHandle parsed indexBlockName = .ok (some index) := by
  simp [findMetaHandle,h,metaEntries,decodeMetaValueHandle_metaValue]

theorem openSst_ok {es : List Entry} {i : Image X opts es} (hw : i.Written X opts)
    {reader : FileReader} (hr : reader.contents = i.bytes) {index : ParsedBlock}
    (hi : parseBlock i.index.finish = .ok index) :
    ∃ metaindex, SstReader.openSst X reader = .ok ⟨reader,⟨blockBasedTableMagic,7,
        opts.checksumType,i.metaed.2,none,5,opts.baseContextChecksum⟩,metaindex,index⟩ ∧
      forEachEntry metaindex = (metaEntries i.propped.2 i.indexed.2,.ok ()) := by
  obtain ⟨hl,hs⟩ := i.served hr
  obtain ⟨metaindex,hm,hread⟩ := i.meta_reads
  have hroom : footerTailLen ≤ reader.contents.length := by
    have h53 : footerTailLen = 53 := rfl
    rw [hr,i.lengths.2.2.2,i.footer_length hw]
    omega
  have hfooter : readFooter X reader = .ok ⟨blockBasedTableMagic,7,opts.checksumType,i.metaed.2,
      none,5,opts.baseContextChecksum⟩ := by
    obtain ⟨tail,htail,hft⟩ := readFooter_tail X hroom
    rw [hr,i.tail_slice hw,Except.ok.injEq] at htail
    rw [hft,← htail,FileReader.fileSize,hr]
    exact i.footer_reads hl hw
  refine ⟨metaindex,?_,hread⟩
  simp only [SstReader.openSst,hfooter,ok_bind,i.fetch_meta hs,hm,
    SstReader.findMetaHandle_index hread,okOr,i.fetch_index hs,hi,pure_eq_ok]

/-- The outcome of reading a file of `n` data blocks that should give `a`: it does with fewer
than 2^32 blocks, and fails otherwise. -/
structure ReadsBack {α : Type} (n : Nat) (r : Exec α) (a : α) : Prop where
  low : n < 2^32 → r = .ok a
  high : 2^32 ≤ n → ∃ e, r = .error e

theorem ReadsBack.iff {α : Type} {n : Nat} {r : Exec α} {a : α} (h : ReadsBack n r a)
    (Q : α → Prop) : (∃ out, r = .ok out ∧ Q out) ↔ n < 2^32 ∧ Q a := by
  constructor
  · intro hh
    obtain ⟨out,hr,hq⟩ := hh
    by_cases hn : n < 2^32
    · rw [h.low hn,Except.ok.injEq] at hr
      exact ⟨hn,hr ▸ hq⟩
    · obtain ⟨e,he⟩ := h.high (Nat.not_lt.mp hn)
      rw [he] at hr
      contradiction
  · intro hh
    obtain ⟨hn,hq⟩ := hh
    exact ⟨a,h.low hn,hq⟩

def FileOf (bytes : Bytes) (es : List Entry) : Prop :=
  ∀ reader : FileReader, reader.contents = bytes →
    ReadsBack (dataBlockCount es) (decodeSst X reader) es

theorem buildSst_fileOf {entries es : List Entry} (hw : writtenEntries opts entries = .ok es)
    (hf : ∀ e ∈ es, Fits e) :
    ∃ bytes, buildSst X opts entries = .ok bytes ∧ FileOf X bytes es := by
  obtain ⟨i,hb,hi'⟩ := buildSst_image X opts hw
  refine ⟨i.bytes,hb,fun reader hr => ?_⟩
  obtain ⟨hl,hs⟩ := i.served hr
  obtain ⟨index,hi,hlow,hhigh⟩ := i.index_reads hl hf hs
  obtain ⟨metaindex,hopen,-⟩ := openSst_ok X opts hi' hr hi
  constructor
  · intro hlt
    obtain ⟨handles,hh,hv⟩ := hlow hlt
    simp only [decodeSst,hopen,ok_bind,SstReader.forEachEntry,hh,hv,pure_eq_ok]
  · intro hge
    rcases hhigh hge with ⟨e,hh⟩ | ⟨handles,e,hh,hv⟩
    · exact ⟨e,by simp only [decodeSst,hopen,ok_bind,SstReader.forEachEntry,hh,error_bind]⟩
    · exact ⟨e,by simp only [decodeSst,hopen,ok_bind,SstReader.forEachEntry,hh,hv,error_bind]⟩

end

end SstCompactor
