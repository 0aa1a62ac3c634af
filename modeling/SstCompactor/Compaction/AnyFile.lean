import SstCompactor.Format.IndexExact
import SstCompactor.Compaction.FileGrammar

/-!
Any file, whoever wrote it. Loading it ends with a source or with an `Err`, unless the file is too
short for a footer, a decompressor panics or a computation overflows: the place of the metaindex
block, the end of a block that is fetched, or a handle that an index block gives as a difference.
The reader that looks one key up on the way fails on the same files and finds the same entries.
-/

set_option autoImplicit false

namespace SstCompactor
open FixedWidth

def InRange (prev : BlockHandle) (d : Int64) : Prop :=
  prev.offset.toNat+prev.size.toNat+5 < 2^64 ∧ -2^63 ≤ prev.size.toInt64.toInt+d.toInt ∧
    prev.size.toInt64.toInt+d.toInt < 2^63

theorem delta_returns_iff (prev : BlockHandle) (d : Int64) :
    Returns (IndexValue.delta prev d).handle ↔ InRange prev d := by
  rw [IndexValue.handle,checkedAddI64,Returns.checked_bind_iff,Returns.checkedAdd_bind_iff,
    Returns.checkedAdd_bind_iff,blockTrailerSize,InRange]
  constructor
  · rintro ⟨hsize,-,hoffset,-⟩
    exact ⟨hoffset,hsize⟩
  · rintro ⟨hoffset,hsize⟩
    exact ⟨hsize,by omega,hoffset,.ok _⟩

theorem readIndexEntry_returns_iff {data : Bytes} (hl : data.length < 2^63)
    (restartOffsets : List Nat) (s : Bytes × Option BlockHandle) (pos : Nat) :
    Returns (readIndexEntry data restartOffsets s pos) ↔
      ∀ key prev d q, readIndexFields data restartOffsets s pos = .ok (key,.delta prev d,q) →
        InRange prev d := by
  rw [readIndexEntry_eq,indexStep,Returns.bind_iff,
    and_iff_right (readIndexFields_returns hl s pos)]
  constructor
  · intro h key prev d q hf
    exact (delta_returns_iff prev d).mp (Returns.bind_iff.mp (h _ hf)).1
  · intro h r hf
    obtain ⟨key,value,q⟩ := r
    cases value with
    | whole handle => exact .ok _
    | delta prev d =>
      exact ((delta_returns_iff prev d).mpr (h key prev d q hf)).bind (fun _ _ => .ok _)

def DeltaIn (index : ParsedBlock) (prev : BlockHandle) (d : Int64) : Prop :=
  ∃ data es s pos key q, index.data = .ok data ∧
    Cursor.Path (readIndexEntry data (index.restarts.map UInt32.toNat)) ([],none) 0 es s pos ∧
    readIndexFields data (index.restarts.map UInt32.toNat) s pos = .ok (key,.delta prev d,q)

section
variable {raw : Bytes} (hl : raw.length < 2^63) {block : ParsedBlock}
  (hp : parseBlock raw = .ok block)
include hl hp

theorem forEachEntry_returns : Returns (forEachEntry block).2 := by
  obtain ⟨data,hs,hd⟩ := parseBlock_splits hp
  rw [forEachEntry,hd]
  exact (walk_readsExactly (Nat.lt_of_le_of_lt hs.length_le hl)).returns

theorem forEachIndexEntry_returns_iff :
    Returns (forEachIndexEntry block).2 ↔ ∀ prev d, DeltaIn block prev d → InRange prev d := by
  obtain ⟨data,hs,hd⟩ := parseBlock_splits hp
  have hlen : data.length < 2^63 := Nat.lt_of_le_of_lt hs.length_le hl
  have hstep := readIndexEntry_returns_iff hlen (block.restarts.map UInt32.toNat)
  have hfail := fun e => Cursor.walk_error_iff (e:=e) (s:=(([],none) : Bytes × Option BlockHandle))
    Fault.outOfFuel (@readIndexEntry_moves data (block.restarts.map UInt32.toNat))
    (Nat.zero_le _) (Nat.sub_le _ _)
  simp only [forEachIndexEntry,hd]
  constructor
  · rintro h prev d ⟨data',es,s,pos,key,q,hd',hpath,hf⟩
    obtain rfl := Except.ok.inj (hd.symm.trans hd')
    refine (hstep s pos).mp ?_ key prev d q hf
    cases hr : readIndexEntry data (block.restarts.map UInt32.toNat) s pos with
    | ok r => exact .ok r
    | error e =>
      have hlt : pos < data.length := by
        have := readIndexFields_moves hf
        omega
      obtain ⟨m,rfl⟩ := h.fault ((hfail e).mpr ⟨es,s,pos,hpath,hlt,hr⟩)
      exact .err m
  · intro h
    cases hw : (Cursor.walk (readIndexEntry data (block.restarts.map UInt32.toNat)) data.length
        .outOfFuel data.length ([],none) 0).2 with
    | ok u => exact .ok u
    | error e =>
      obtain ⟨es,s,pos,hpath,-,he⟩ := (hfail e).mp hw
      obtain ⟨m,rfl⟩ := ((hstep s pos).mpr (fun key prev d q hf =>
        h prev d ⟨data,es,s,pos,key,q,hd,hpath,hf⟩)).fault he
      exact .err m

theorem dataHandles_returns_iff :
    Returns (dataHandles block) ↔ ∀ prev d, DeltaIn block prev d → InRange prev d := by
  rw [← forEachIndexEntry_returns_iff hl hp,dataHandles,Returns.bind_iff]
  exact and_iff_left (fun _ _ => .ok _)

theorem indexHandleOf_returns (ft : Footer) : Returns (indexHandleOf ft block) := by
  rw [indexHandleOf]
  split
  · exact .ok _
  · refine .bind ?_ (fun found _ => okOr_returns _ _)
    exact (forEachEntry_returns hl hp).bind (fun _ _ => .ok _)

end

theorem parseBlock_returns (raw : Bytes) : Returns (parseBlock raw) := by
  rcases parseBlock_cases raw with ⟨data,restarts,hs⟩ | ⟨m,hm⟩
  · rw [hs.parse.1]
    exact .ok _
  · rw [hm]
    exact .err m

def OpensIndex (fetch : BlockHandle → Exec Bytes) (ft : Footer) (index : ParsedBlock) : Prop :=
  ∃ handle, fetch ft.metaindexHandle >>= parseBlock >>= indexHandleOf ft = .ok handle ∧
    fetch handle >>= parseBlock = .ok index

/-- The handles that are fetched on the way from a footer to the entries. A data block is fetched
when all blocks in front of it could be read. -/
inductive Fetched (fetch : BlockHandle → Exec Bytes) (ft : Footer) : BlockHandle → Prop where
  | metaindex : Fetched fetch ft ft.metaindexHandle
  | index {handle : BlockHandle} :
      fetch ft.metaindexHandle >>= parseBlock >>= indexHandleOf ft = .ok handle →
      Fetched fetch ft handle
  | data {index : ParsedBlock} {before after : List BlockHandle} {handle : BlockHandle} :
      OpensIndex fetch ft index → dataHandles index = .ok (before ++ handle :: after) →
      (visitBlocks fetch before).2 = .ok () → Fetched fetch ft handle

def DeltasInRange (fetch : BlockHandle → Exec Bytes) (ft : Footer) : Prop :=
  ∀ index, OpensIndex fetch ft index → ∀ prev d, DeltaIn index prev d → InRange prev d

theorem visitBlocks_cons (fetch : BlockHandle → Exec Bytes) (h : BlockHandle)
    (handles : List BlockHandle) : (visitBlocks fetch (h :: handles)).2 = (do
      let block ← fetch h >>= parseBlock
      (forEachEntry block).2
      (visitBlocks fetch handles).2) := by
  rw [visitBlocks]
  cases fetch h >>= parseBlock with
  | error e => rfl
  | ok block =>
    simp only [ok_bind]
    rcases forEachEntry block with ⟨es,outcome⟩
    cases outcome with
    | error e => rfl
    | ok u => rfl

section
variable {fetch : BlockHandle → Exec Bytes} (hlen : ∀ h raw, fetch h = .ok raw → raw.length < 2^63)
include hlen

theorem block_parsed {h : BlockHandle} {block : ParsedBlock}
    (hb : fetch h >>= parseBlock = .ok block) :
    ∃ raw, raw.length < 2^63 ∧ parseBlock raw = .ok block := by
  obtain ⟨raw,hr,hp⟩ := bind_eq_ok hb
  exact ⟨raw,hlen h raw hr,hp⟩

omit hlen in
theorem block_returns_iff (h : BlockHandle) :
    Returns (fetch h >>= parseBlock) ↔ Returns (fetch h) := by
  rw [Returns.bind_iff]
  exact and_iff_left (fun raw _ => parseBlock_returns raw)

theorem visitBlocks_returns_iff {handles : List BlockHandle} :
    Returns (visitBlocks fetch handles).2 ↔ ∀ before h after, handles = before ++ h :: after →
      (visitBlocks fetch before).2 = .ok () → Returns (fetch h) := by
  induction handles with
  | nil => exact ⟨fun _ before h after hs => by simp at hs,fun _ => .ok ()⟩
  | cons h handles ih =>
    constructor
    · intro hr before h' after hs hok
      rw [visitBlocks_cons] at hr
      obtain ⟨hblock,hr⟩ := Returns.bind_iff.mp hr
      cases before with
      | nil =>
        obtain ⟨rfl,-⟩ := List.cons.inj hs
        exact (block_returns_iff _).mp hblock
      | cons b before =>
        obtain ⟨rfl,rfl⟩ := List.cons.inj hs
        rw [visitBlocks_cons] at hok
        obtain ⟨block,hb,hok⟩ := bind_eq_ok hok
        obtain ⟨u,he,hok⟩ := bind_eq_ok hok
        exact ih.mp ((Returns.bind_iff.mp (hr block hb)).2 u he) before h' after rfl hok
    · intro hall
      rw [visitBlocks_cons]
      refine .bind ((block_returns_iff h).mpr (hall [] h handles rfl rfl)) (fun block hb => ?_)
      obtain ⟨raw,hl,hp⟩ := block_parsed hlen hb
      refine .bind (forEachEntry_returns hl hp) (fun u he => ih.mpr ?_)
      rintro before h' after rfl hok
      refine hall (h :: before) h' after rfl ?_
      rw [visitBlocks_cons,hb,ok_bind,he]
      exact hok

theorem follow_returns_iff {ft : Footer} :
    Returns (follow fetch ft) ↔
      (∀ handle, Fetched fetch ft handle → Returns (fetch handle)) ∧ DeltasInRange fetch ft := by
  have hcut : follow fetch ft = (do
      let handle ← fetch ft.metaindexHandle >>= parseBlock >>= indexHandleOf ft
      let index ← fetch handle >>= parseBlock
      let handles ← dataHandles index
      (visitBlocks fetch handles).2
      pure (visitBlocks fetch handles).1) := by
    simp only [follow,bind_assoc]
  rw [hcut]
  constructor
  · intro h
    obtain ⟨hhandle,h⟩ := Returns.bind_iff.mp h
    have hmeta := (block_returns_iff _).mp (Returns.bind_iff.mp hhandle).1
    refine ⟨fun handle hf => ?_,fun index hi prev d => ?_⟩
    · cases hf with
      | metaindex => exact hmeta
      | index hi => exact (block_returns_iff _).mp (Returns.bind_iff.mp (h _ hi)).1
      | data hi hd hv =>
        obtain ⟨handle',hi,hx⟩ := hi
        have hrest := (Returns.bind_iff.mp ((Returns.bind_iff.mp (h _ hi)).2 _ hx)).2 _ hd
        exact (visitBlocks_returns_iff hlen).mp (Returns.bind_iff.mp hrest).1 _ _ _ rfl hv
    · obtain ⟨handle,hi,hx⟩ := hi
      obtain ⟨raw,hl,hp⟩ := block_parsed hlen hx
      have hrest := (Returns.bind_iff.mp ((Returns.bind_iff.mp (h _ hi)).2 _ hx)).1
      exact (dataHandles_returns_iff hl hp).mp hrest prev d
  · rintro ⟨hfetched,hdeltas⟩
    refine .bind (.bind ((block_returns_iff _).mpr (hfetched _ .metaindex)) (fun metaindex hm => ?_))
      (fun handle hi => ?_)
    · obtain ⟨raw,hl,hp⟩ := block_parsed hlen hm
      exact indexHandleOf_returns hl hp ft
    · refine .bind ((block_returns_iff _).mpr (hfetched _ (.index hi))) (fun index hx => ?_)
      obtain ⟨raw,hl,hp⟩ := block_parsed hlen hx
      refine .bind ((dataHandles_returns_iff hl hp).mpr (hdeltas index ⟨handle,hi,hx⟩))
        (fun handles hd => ?_)
      refine .bind ((visitBlocks_returns_iff hlen).mpr ?_) (fun _ _ => .ok _)
      rintro before h' after rfl hv
      exact hfetched h' (.data ⟨handle,hi,hx⟩ hd hv)

end

/-- A footer that passes the checks records a metaindex block that has room in front of it. -/
def FooterRoom (X : Crates) (file : Bytes) : Prop :=
  ∀ blocks tail, file = blocks ++ tail → tail.length = 53 →
    Passes X tail (UInt64.ofNat file.length) → (word tail 13).toNat+5 ≤ blocks.length

theorem readFooter_returns_iff {X : Crates} (reader : FileReader) :
    Returns (readFooter X reader) ↔ FooterRoom X reader.contents := by
  have hlt := reader.length_lt
  have hsize := reader.fileSize_toNat
  have h53 : footerTailLen = 53 := rfl
  by_cases hl : footerTailLen ≤ reader.contents.length
  · obtain ⟨tail,hcut,htl,hft⟩ := readFooter_cut X hl
    rw [hft,decodeFooter_returns_iff htl (by omega)]
    constructor
    · intro h blocks tail' hc htl' hp
      have hsum := congrArg List.length hc
      rw [List.length_append] at hsum
      obtain rfl : tail' = tail := by
        rw [hcut,hc,List.length_append,htl',Nat.add_sub_cancel,List.drop_left]
      have := h hp
      omega
    · intro h hp
      have := h (reader.contents.take (reader.contents.length-53)) tail
        (by rw [hcut,List.take_append_drop]) htl hp
      rw [List.length_take] at this
      omega
  · constructor
    · intro _ blocks tail hc htl
      have hsum := congrArg List.length hc
      rw [List.length_append] at hsum
      omega
    · intro _
      have hshort : reader.fileSize.toNat < footerTailLen := by omega
      simp only [readFooter,hshort,↓reduceIte,throw_eq_error,error_bind]
      exact .err _

section
variable (X : Crates)

inductive Calls : CompressionType → Bytes → Exec Bytes → Prop where
  | snappy {raw : Bytes} : Calls .snappy raw (X.snappy raw)
  | lz4 {code payload : Bytes} {size : UInt64} : Varint64 code size →
      Calls .lz4 (code ++ payload) (X.lz4 payload size.toNat)
  | lz4Hc {code payload : Bytes} {size : UInt64} : Varint64 code size →
      Calls .lz4Hc (code ++ payload) (X.lz4 payload size.toNat)
  | zstd {code payload : Bytes} {size : UInt64} : Varint64 code size →
      Calls .zstd (code ++ payload) (X.zstd payload size.toNat)

variable {X} in
theorem Calls.returns (hX : X.Total) {ty : CompressionType} {raw : Bytes} {r : Exec Bytes}
    (h : Calls X ty raw r) : Returns r := by
  cases h with
  | snappy => exact hX.snappy _
  | lz4 _ | lz4Hc _ => exact hX.lz4 _ _
  | zstd _ => exact hX.zstd _ _

theorem sized_returns_iff {data : Bytes} {codec : Bytes → Nat → Exec Bytes} {heading : String} :
    Returns (do
      let (n,payload) ← splitUncompressedSizePrefix data
      codecResult heading (codec payload n)) ↔
      ∀ code payload size, Varint64 code size → data = code ++ payload →
        Returns (codec payload size.toNat) := by
  rw [Returns.bind_iff,and_iff_right (splitUncompressedSizePrefix_returns data)]
  constructor
  · intro h code payload size hc hd
    exact codecResult_returns_iff.mp
      (h (size.toNat,payload) (splitUncompressedSizePrefix_iff.mpr ⟨code,size,hc,hd,rfl⟩))
  · rintro h ⟨n,payload⟩ hs
    obtain ⟨code,size,hc,hd,rfl⟩ := splitUncompressedSizePrefix_iff.mp hs
    exact codecResult_returns_iff.mpr (h code payload size hc hd)

theorem decompress_returns_iff {ty : CompressionType} {raw : Bytes} :
    Returns (decompress X ty raw) ↔ ∀ r, Calls X ty raw r → Returns r := by
  cases ty with
  | noCompression => exact iff_of_true (.ok raw) nofun
  | zlib | bzip2 | xpress => exact iff_of_true (.err _) nofun
  | snappy =>
    rw [decompress,codecResult_returns_iff]
    refine ⟨fun h r hr => ?_,fun h => h _ .snappy⟩
    cases hr with
    | snappy => exact h
  | lz4 =>
    rw [decompress,sized_returns_iff]
    refine ⟨fun h r hr => ?_,fun h code payload size hc hd => h _ (hd ▸ .lz4 hc)⟩
    cases hr with
    | lz4 hc => exact h _ _ _ hc rfl
  | lz4Hc =>
    rw [decompress,sized_returns_iff]
    refine ⟨fun h r hr => ?_,fun h code payload size hc hd => h _ (hd ▸ .lz4Hc hc)⟩
    cases hr with
    | lz4Hc hc => exact h _ _ _ hc rfl
  | zstd =>
    rw [decompress,sized_returns_iff]
    refine ⟨fun h r hr => ?_,fun h code payload size hc hd => h _ (hd ▸ .zstd hc)⟩
    cases hr with
    | zstd hc => exact h _ _ _ hc rfl

def StoredAt (file : Bytes) (ft : Footer) (handle : BlockHandle) (ty : CompressionType)
    (raw : Bytes) : Prop :=
  ∃ pre buf post, file = pre ++ buf ++ post ∧ pre.length = handle.offset.toNat ∧
    Intact X ft.checksumType ft.baseContextChecksum handle buf ty.toByte raw

theorem block_fetched_iff {file : Bytes} {ft : Footer} {handle : BlockHandle} :
    Returns (decodeBlockInMemory X file ft handle) ↔ handle.NoOverflow ∧
      ∀ ty raw r, StoredAt X file ft handle ty raw → Calls X ty raw r → Returns r := by
  rw [decodeBlockInMemory_returns_iff]
  refine and_congr_right (fun hno => ?_)
  constructor
  · rintro h ty raw r ⟨pre,buf,post,hf,hp,hi⟩ hc
    have hg : getRange file handle.offset.toNat (handle.offset.toNat+(handle.size.toNat+5)) =
        some buf := getRange_at hf hp.symm (by rw [hi.length])
    have hall := (decodeBlockContents_returns_iff (by omega)).mp (h buf hg)
    exact (decompress_returns_iff X).mp
      (hall ty.toByte raw hi ty (CompressionType.fromByte_toByte ty)) r hc
  · intro h buf hg
    obtain ⟨pre,post,hf,hp⟩ := range_parts hg
    refine (decodeBlockContents_returns_iff (by omega)).mpr (fun comp raw hi ty hty => ?_)
    obtain rfl := CompressionType.fromByte_iff.mp hty
    exact (decompress_returns_iff X).mpr
      (fun r hc => h ty raw r ⟨pre,buf,post,hf,hp,hi⟩ hc)

/-- What has to hold on the way from a footer to the entries: every block that is fetched has an
end, no decompressor panics, and the differences in the index give handles. -/
structure Followable (file : Bytes) (ft : Footer) : Prop where
  handles : ∀ handle, Fetched (decodeBlockInMemory X file ft) ft handle → handle.NoOverflow
  unpacked : ∀ handle ty raw r, Fetched (decodeBlockInMemory X file ft) ft handle →
    StoredAt X file ft handle ty raw → Calls X ty raw r → Returns r
  deltas : DeltasInRange (decodeBlockInMemory X file ft) ft

end

section
variable {X : Crates} (hV : X.Vecs) (reader : FileReader)
include hV

theorem follow_memory_returns_iff {ft : Footer} :
    Returns (follow (decodeBlockInMemory X reader.contents ft) ft) ↔
      Followable X reader.contents ft := by
  rw [follow_returns_iff (fun h raw hb =>
    ((decodeBlockInMemory_iff reader.length_lt).mp hb).length_lt hV reader.length_lt)]
  constructor
  · rintro ⟨hfetched,hdeltas⟩
    exact ⟨fun h hf => ((block_fetched_iff X).mp (hfetched h hf)).1,
      fun h ty raw r hf => ((block_fetched_iff X).mp (hfetched h hf)).2 ty raw r,hdeltas⟩
  · intro h
    exact ⟨fun handle hf => (block_fetched_iff X).mpr
      ⟨h.handles handle hf,fun ty raw r => h.unpacked handle ty raw r hf⟩,h.deltas⟩

theorem long_returns_iff (hl : 53 ≤ reader.contents.length) :
    Returns (loadArenaSource X reader) ↔ FooterRoom X reader.contents ∧
      ∀ ft, readFooter X reader = .ok ft → Followable X reader.contents ft := by
  rw [loadArenaSource_follow X hl,Returns.bind_iff,readFooter_returns_iff]
  refine and_congr_right (fun _ => forall_congr' (fun ft => forall_congr' (fun _ => ?_)))
  rw [Returns.bind_iff,and_iff_left (fun _ _ => .ok _)]
  exact follow_memory_returns_iff hV reader

omit hV in
theorem long_of_returns (h : Returns (loadArenaSource X reader)) :
    53 ≤ reader.contents.length := by
  by_contra hl
  obtain ⟨m,hm⟩ := h.fault (readers_short X reader (Nat.not_le.mp hl)).1
  contradiction

/-- Which files are loaded or refused without a panic. -/
theorem load_returns_iff :
    Returns (loadArenaSource X reader) ↔
      53 ≤ reader.contents.length ∧ FooterRoom X reader.contents ∧
      ∀ ft, readFooter X reader = .ok ft → Followable X reader.contents ft :=
  ⟨fun h => ⟨long_of_returns reader h,(long_returns_iff hV reader (long_of_returns reader h)).mp h⟩,
    fun h => (long_returns_iff hV reader h.1).mpr h.2⟩

end

def loneFooter : FileReader := ⟨plainFooter 0,by decide⟩

theorem loneFooter_passes : Passes .idle (plainFooter 0) 53 :=
  ⟨by decide,by decide,by decide,0,.noChecksum,by decide,by decide,.inl rfl⟩

/-- As `idle`, but lz4 makes room for what a block declares, as far as a vector goes. -/
def Crates.eager : Crates :=
  { Crates.idle with
    lz4 := fun _ n =>
      if n < 2^63 then .error (.err "lz4: corrupt input")
      else .error (.foreign "capacity overflow") }

theorem eager_vecs : Crates.eager.Vecs := by
  refine ⟨fun _ _ h => by contradiction,fun raw n out h => ?_,fun _ _ _ h => by contradiction⟩
  simp only [Crates.eager] at h
  split at h <;> contradiction

def greedyFile : FileReader where
  contents :=
    putVarint64 0x8000000000000000 ++ [0x04] ++ leBytes 4 0 ++
    [0,0,10,0,0] ++ leBytes 36 0 ++ leBytes 4 2 ++ leBytes 8 blockBasedTableMagic
  length_lt := by decide

def greedyFooter : Footer :=
  ⟨blockBasedTableMagic,2,.noChecksum,⟨0,10⟩,some ⟨0,0⟩,5,0⟩

theorem load_returns_short :
    ¬ Returns (loadArenaSource .idle emptyFile) ∧ ¬ Returns (loadArenaSource .idle loneFooter) ∧
      ¬ Returns (loadArenaSource .eager greedyFile) ∧
      ∃ reader : FileReader, buildSst .idle plainOptions longAndShort = .ok reader.contents ∧
        FooterRoom .idle reader.contents ∧
        ∀ ft, readFooter .idle reader = .ok ft → Followable .idle reader.contents ft := by
  refine ⟨fun h => ?_,fun h => ?_,fun h => ?_,?_⟩
  · have := ((load_returns_iff idle_vecs emptyFile).mp h).1
    contradiction
  · have hroom := ((load_returns_iff idle_vecs loneFooter).mp h).2.1
    have := hroom [] (plainFooter 0) rfl (by decide) loneFooter_passes
    contradiction
  · have hft : readFooter .eager greedyFile = .ok greedyFooter := by decide +kernel
    have hfollow := ((load_returns_iff eager_vecs greedyFile).mp h).2.2 _ hft
    have hcode : Varint64 (putVarint64 0x8000000000000000) 0x8000000000000000 :=
      ⟨by decide,_,Leb128.put_code (by decide) (by decide),by decide⟩
    have hstored : StoredAt .eager greedyFile.contents greedyFooter ⟨0,10⟩ .lz4
        (putVarint64 0x8000000000000000 ++ []) :=
      ⟨[],putVarint64 0x8000000000000000 ++ [] ++ [0x04] ++ leBytes 4 (0 : UInt32).toNat,
        [0,0,10,0,0] ++ leBytes 36 0 ++ leBytes 4 2 ++ leBytes 8 blockBasedTableMagic,
        by decide +kernel,rfl,.mk rfl (.inl rfl)⟩
    obtain ⟨m,hm⟩ := (hfollow.unpacked _ _ _ _ .metaindex hstored (.lz4 hcode)).fault
      (e:=.foreign "capacity overflow") rfl
    contradiction
  · obtain ⟨reader,hb⟩ := longAndShort_opens
    have hload := (loadArenaSource_grammar idle_vecs reader).mpr
      ⟨_,(decodeSst_grammar idle_vecs reader).mp (longAndShort_decodes hb),rfl⟩
    exact ⟨reader,hb,((load_returns_iff idle_vecs reader).mp (hload ▸ .ok _)).2⟩

theorem fetches_same {X : Crates} {reader : FileReader} {ft : Footer} {handle : BlockHandle}
    {raw : Bytes} : decodeBlockInMemory X reader.contents ft handle = .ok raw ↔
      readBlockContents X reader ft.checksumType ft.baseContextChecksum handle = .ok raw :=
  (decodeBlockInMemory_iff reader.length_lt).trans readBlockContents_iff.symm

theorem parsed_same {X : Crates} {reader : FileReader} {ft : Footer} {handle : BlockHandle}
    {block : ParsedBlock}
    (h : decodeBlockInMemory X reader.contents ft handle >>= parseBlock = .ok block) :
    readBlockContents X reader ft.checksumType ft.baseContextChecksum handle >>= parseBlock =
      .ok block := by
  obtain ⟨raw,hr,hp⟩ := bind_eq_ok h
  rw [fetches_same.mp hr]
  exact hp

theorem Fetched.mem {X : Crates} {reader : FileReader} {ft : Footer} {handle : BlockHandle}
    (hft : readFooter X reader = .ok ft)
    (h : Fetched (decodeBlockInMemory X reader.contents ft) ft handle) :
    handle ∈ handlesIn X reader := by
  have hindex : ∀ {handle : BlockHandle}, decodeBlockInMemory X reader.contents ft
      ft.metaindexHandle >>= parseBlock >>= indexHandleOf ft = .ok handle →
      readBlockContents X reader ft.checksumType ft.baseContextChecksum ft.metaindexHandle >>=
        parseBlock >>= indexHandleOf ft = .ok handle := by
    intro handle hi
    obtain ⟨metaindex,hm,hi⟩ := bind_eq_ok hi
    rw [parsed_same hm]
    exact hi
  cases h with
  | metaindex => exact handlesIn_meta hft
  | index hi => exact handlesIn_index hft (hindex hi)
  | @data index before after _ ho hd _ =>
    obtain ⟨indexHandle,hi,hx⟩ := ho
    have hmem : handle ∈ (forEachIndexEntry index).1.map Prod.snd := by
      rw [← dataHandles_mem hd]
      exact List.mem_append_right _ (List.mem_cons_self)
    obtain ⟨e,he,rfl⟩ := List.mem_map.mp hmem
    exact handlesIn_data hft (hindex hi) (parsed_same hx) e he

theorem visitBlocks_fetches {fetch : BlockHandle → Exec Bytes} {handles : List BlockHandle}
    (h : (visitBlocks fetch handles).2 = .ok ()) : ∀ x ∈ handles, ∃ raw, fetch x = .ok raw := by
  induction handles with
  | nil => simp
  | cons x handles ih =>
    rw [visitBlocks_cons] at h
    obtain ⟨block,hb,h⟩ := bind_eq_ok h
    obtain ⟨u,-,h⟩ := bind_eq_ok h
    obtain ⟨raw,hr,-⟩ := bind_eq_ok hb
    intro y hy
    rcases List.mem_cons.mp hy with rfl | hy
    · exact ⟨raw,hr⟩
    · exact ih h y hy

theorem handlesIn_of_decodes {X : Crates} {reader : FileReader} {es : List Entry}
    (h : decodeSst X reader = .ok es) : ∀ handle ∈ handlesIn X reader, handle.NoOverflow := by
  rw [decodeSst_follow] at h
  obtain ⟨ft,hft,h⟩ := bind_eq_ok h
  obtain ⟨metaRaw,hm,h⟩ := bind_eq_ok h
  obtain ⟨metaindex,hmp,h⟩ := bind_eq_ok h
  obtain ⟨indexHandle,hi,h⟩ := bind_eq_ok h
  obtain ⟨indexRaw,hx,h⟩ := bind_eq_ok h
  obtain ⟨index,hxp,h⟩ := bind_eq_ok h
  obtain ⟨handles,hh,h⟩ := bind_eq_ok h
  obtain ⟨u,hv,-⟩ := bind_eq_ok h
  have hfits : ∀ x raw, readBlockContents X reader ft.checksumType ft.baseContextChecksum x =
      .ok raw → x.NoOverflow := by
    intro x raw hr
    have hin := (readBlockContents_iff.mp hr).inside
    have hlt := reader.length_lt
    exact Nat.lt_of_le_of_lt hin (by omega)
  intro handle hmem
  simp only [handlesIn,hft,hm,ok_bind,hmp,hi,hx,hxp,List.mem_cons] at hmem
  rcases hmem with rfl | rfl | hmem
  · exact hfits _ _ hm
  · exact hfits _ _ hx
  · rw [← dataHandles_mem hh] at hmem
    obtain ⟨raw,hr⟩ := visitBlocks_fetches hv handle hmem
    exact hfits _ _ hr

/-- What is asked of the two readers: they refuse the same files with an `Err`, and get the same
entries out of all others. -/
structure ReadersAgree (X : Crates) (reader : FileReader) : Prop where
  refuse : (∃ m, loadArenaSource X reader = .error (.err m)) ↔
    ∃ m, decodeSst X reader = .error (.err m)
  accept : (¬ ∃ m, loadArenaSource X reader = .error (.err m)) →
    ∃ source es, loadArenaSource X reader = .ok source ∧ decodeSst X reader = .ok es ∧
      Yields source es

theorem ReadersAgree.returns {X : Crates} {reader : FileReader} (h : ReadersAgree X reader) :
    Returns (loadArenaSource X reader) := by
  by_cases herr : ∃ m, loadArenaSource X reader = .error (.err m)
  · exact .inr herr
  · obtain ⟨source,es,hs,-⟩ := h.accept herr
    exact .inl ⟨source,hs⟩

/-- The readers agree, if and only if the file has room for a footer and for the metaindex block
of the footer, and the differences in the index give handles. -/
theorem readers_agree_iff {X : Crates} (hX : X.Total) (hV : X.Vecs) (reader : FileReader)
    (hh : ∀ h ∈ handlesIn X reader, h.offset.toNat+h.size.toNat+5 < 2^64)
    (hcap : ∀ es, decodeSst X reader = .ok es → totalBytes es < 2^32) :
    ReadersAgree X reader ↔
      53 ≤ reader.contents.length ∧ FooterRoom X reader.contents ∧
      ∀ ft, readFooter X reader = .ok ft →
        DeltasInRange (decodeBlockInMemory X reader.contents ft) ft := by
  constructor
  · intro h
    have hl := long_of_returns reader h.returns
    obtain ⟨hroom,hfollow⟩ := (long_returns_iff hV reader hl).mp h.returns
    exact ⟨hl,hroom,fun ft hft => (hfollow ft hft).deltas⟩
  · rintro ⟨hl,hroom,hdeltas⟩
    have ha := readers_alike X hl hh
    have hreturns : Returns (loadArenaSource X reader) := by
      refine (long_returns_iff hV reader hl).mpr ⟨hroom,fun ft hft => ?_⟩
      refine ⟨fun h hf => hh h (hf.mem hft),fun h ty raw r _ _ hc => ?_,hdeltas ft hft⟩
      exact hc.returns hX
    refine ⟨ha.err_iff,fun herr => ?_⟩
    obtain ⟨source,hs⟩ := hreturns.resolve_right herr
    rw [hs] at ha
    cases hd : decodeSst X reader with
    | error e =>
      rw [hd] at ha
      cases ha
    | ok es =>
      rw [hd] at ha
      cases ha with
      | ok he => exact ⟨source,es,hs,rfl,he ▸ ofEntries_yields (hcap es hd)⟩

theorem readers_agree_two :
    (∃ reader : FileReader, buildSst .idle plainOptions longAndShort = .ok reader.contents ∧
      ReadersAgree .idle reader) ∧ ¬ ReadersAgree .idle loneFooter := by
  constructor
  · obtain ⟨reader,hb⟩ := longAndShort_opens
    have hdecode := longAndShort_decodes hb
    have hload := (loadArenaSource_grammar idle_vecs reader).mpr
      ⟨_,(decodeSst_grammar idle_vecs reader).mp hdecode,rfl⟩
    have hreturns : Returns (loadArenaSource .idle reader) := hload ▸ .ok _
    have hl := long_of_returns reader hreturns
    obtain ⟨hroom,hfollow⟩ := (long_returns_iff idle_vecs reader hl).mp hreturns
    refine ⟨reader,hb,(readers_agree_iff idle_total idle_vecs reader
      (handlesIn_of_decodes hdecode) ?_).mpr ⟨hl,hroom,fun ft hft => (hfollow ft hft).deltas⟩⟩
    intro es he
    rw [hdecode] at he
    obtain rfl := Except.ok.inj he
    rw [longAndShort_totalBytes]
    decide
  · intro h
    have hdecode : decodeSst .idle loneFooter = .error .overflow := by decide +kernel
    have hroom := ((readers_agree_iff idle_total idle_vecs loneFooter (by decide +kernel)
      (fun es he => by rw [hdecode] at he; contradiction)).mp h).2.1
    have := hroom [] (plainFooter 0) rfl (by decide) loneFooter_passes
    contradiction

theorem readers_agree_empty :
    Crates.idle.Total ∧ Crates.idle.Vecs ∧
    (∀ h ∈ handlesIn .idle emptyFile, h.offset.toNat+h.size.toNat+5 < 2^64) ∧
    (∀ es, decodeSst .idle emptyFile = .ok es → totalBytes es < 2^32) ∧
    (∃ m, decodeSst .idle emptyFile = .error (.err m)) ∧
    loadArenaSource .idle emptyFile = .error .overflow ∧ ¬ ReadersAgree .idle emptyFile := by
  obtain ⟨hload,hdecode⟩ := readers_short .idle emptyFile (by decide)
  refine ⟨idle_total,idle_vecs,by decide,?_,⟨_,hdecode⟩,hload,?_⟩
  · intro es he
    simp [hdecode] at he
  · intro h
    obtain ⟨m,hm⟩ := h.refuse.mpr ⟨_,hdecode⟩
    simp [hload] at hm

end SstCompactor
