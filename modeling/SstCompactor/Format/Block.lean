import SstCompactor.Format.Footer
import SstCompactor.Codec.Cursor

set_option autoImplicit false

namespace SstCompactor
open FixedWidth

inductive CompressionType where
  | noCompression | snappy | zlib | bzip2 | lz4 | lz4Hc | xpress | zstd
  deriving DecidableEq, Repr

namespace CompressionType

def fromByte (b : UInt8) : Exec CompressionType :=
  if b = 0x00 then .ok .noCompression
  else if b = 0x01 then .ok .snappy
  else if b = 0x02 then .ok .zlib
  else if b = 0x03 then .ok .bzip2
  else if b = 0x04 then .ok .lz4
  else if b = 0x05 then .ok .lz4Hc
  else if b = 0x06 then .ok .xpress
  else if b = 0x07 then .ok .zstd
  else .error (.err ("unsupported/unknown compression type byte " ++ toString b))

def toByte : CompressionType → UInt8
  | .noCompression => 0x00
  | .snappy => 0x01
  | .zlib => 0x02
  | .bzip2 => 0x03
  | .lz4 => 0x04
  | .lz4Hc => 0x05
  | .xpress => 0x06
  | .zstd => 0x07

def debug : CompressionType → String
  | .noCompression => "NoCompression"
  | .snappy => "Snappy"
  | .zlib => "Zlib"
  | .bzip2 => "BZip2"
  | .lz4 => "Lz4"
  | .lz4Hc => "Lz4Hc"
  | .xpress => "Xpress"
  | .zstd => "Zstd"

theorem fromByte_toByte (t : CompressionType) : fromByte t.toByte = .ok t := by
  cases t <;> rfl

end CompressionType

def blockTrailerSize : Nat := 5

def blockReadLen (handle : BlockHandle) : Exec Nat :=
  checkedAdd 64 handle.size.toNat blockTrailerSize

def computeChecksumWithLastByte (X : Crates) (ty : ChecksumType) (data : Bytes)
    (lastByte : UInt8) : UInt32 :=
  match ty with
  | .noChecksum => 0
  | .crc32c => maskCrc32c (X.crc32cAppend (X.crc32c data) [lastByte])
  | .xxHash => X.xxh32Stream 0 [data,[lastByte]]
  | .xxHash64 => (X.xxh64Stream 0 [data,[lastByte]] &&& 0xffffffff).toUInt32
  | .xxH3 => modifyChecksumForLastByte (X.xxh3 data &&& 0xffffffff).toUInt32 lastByte

def encodeBlockWithTrailer (X : Crates) (rawContents : Bytes) (offset : UInt64)
    (checksumType : ChecksumType) (baseContextChecksum : UInt32) : Bytes :=
  let compByte := CompressionType.noCompression.toByte
  let checksum := computeChecksumWithLastByte X checksumType rawContents compByte +
    checksumModifierForContext baseContextChecksum offset
  rawContents ++ [compByte] ++ leBytes 4 checksum.toNat

def splitUncompressedSizePrefix (data : Bytes) : Exec (Nat × Bytes) := do
  let (size,pos) ← readVarint64 data 0 "failed to read uncompressed-size prefix"
  let payload ← slice data pos data.length
  pure (size.toNat,payload)

def codecResult (heading : String) (r : Exec Bytes) : Exec Bytes :=
  match r with
  | .ok out => .ok out
  | .error (.err e) => .error (.err (heading ++ e))
  | .error other => .error other

def decompress (X : Crates) (ty : CompressionType) (data : Bytes) : Exec Bytes :=
  match ty with
  | .noCompression => .ok data
  | .snappy => codecResult "snappy decompress failed: " (X.snappy data)
  | .lz4 | .lz4Hc => do
      let (uncompressedSize,payload) ← splitUncompressedSizePrefix data
      codecResult "lz4 decompress failed: " (X.lz4 payload uncompressedSize)
  | .zstd => do
      let (uncompressedSize,payload) ← splitUncompressedSizePrefix data
      codecResult "zstd decompress failed: " (X.zstd payload uncompressedSize)
  | other => .error (.err ("compression type " ++ other.debug ++ " not yet supported"))

def decodeBlockContents (X : Crates) (rawWithTrailer : Bytes) (handle : BlockHandle)
    (checksumType : ChecksumType) (baseContextChecksum : UInt32) : Exec Bytes := do
  let rawLen := handle.size.toNat
  let total ← checkedAdd 64 rawLen blockTrailerSize
  if rawWithTrailer.length ≠ total then
    throw (.err ("block buffer wrong size: expected " ++ toString total ++ " got " ++
      toString rawWithTrailer.length))
  let raw ← slice rawWithTrailer 0 rawLen
  let trailer ← slice rawWithTrailer rawLen total
  let compByte ← index trailer 0
  let storedChecksum ← readU32 trailer 1
  let computed := computeChecksumWithLastByte X checksumType raw compByte +
    checksumModifierForContext baseContextChecksum handle.offset
  if checksumType ≠ .noChecksum ∧ computed ≠ storedChecksum then
    throw (.err ("block checksum mismatch at offset " ++ toString handle.offset ++
      ": stored=0x" ++ hex 8 storedChecksum.toNat ++ " computed=0x" ++ hex 8 computed.toNat))
  let compression ← CompressionType.fromByte compByte
  decompress X compression raw

theorem decodeBlockContents_parts (X : Crates) {ty : ChecksumType} {base : UInt32} {raw : Bytes}
    {comp : UInt8} {stored : UInt32} {handle : BlockHandle}
    (hr : raw.length = handle.size.toNat) (h : raw.length+5 < 2^64) {computed : UInt32}
    (hc : computeChecksumWithLastByte X ty raw comp +
      checksumModifierForContext base handle.offset = computed) :
    decodeBlockContents X (raw ++ [comp] ++ leBytes 4 stored.toNat) handle ty base =
      if ty ≠ .noChecksum ∧ computed ≠ stored then
        .error (.err ("block checksum mismatch at offset " ++ toString handle.offset ++
          ": stored=0x" ++ hex 8 stored.toNat ++ " computed=0x" ++ hex 8 computed.toNat))
      else (do
        let compression ← CompressionType.fromByte comp
        decompress X compression raw) := by
  generalize ht : [comp] ++ leBytes 4 stored.toNat = trailer
  have htl : trailer.length = 5 := by rw [← ht]; simp
  have htop : index trailer 0 = .ok comp := by rw [← ht]; rfl
  have hstored : readU32 trailer 1 = .ok stored :=
    readU32_at (p:=[comp]) (q:=[]) stored (by rw [← ht,List.append_nil]) rfl
  have hraw : slice (raw ++ trailer) 0 raw.length = .ok raw := by
    simpa using slice_append [] raw trailer (b:=raw.length) (by simp)
  have htrailer : slice (raw ++ trailer) raw.length (raw.length+5) = .ok trailer := by
    simpa using slice_append raw trailer [] (b:=raw.length+5) (by rw [htl])
  have hlen : ¬ (raw ++ trailer).length ≠ raw.length+5 := by simp [htl]
  rw [List.append_assoc,ht]
  simp only [decodeBlockContents,← hr,blockTrailerSize,checkedAdd_of_lt h,ok_bind,hlen,
    ↓reduceIte,hraw,htrailer,htop,hstored,hc,throw_eq_error,error_bind]

theorem trailer_parts {buf : Bytes} {n : Nat} (h : buf.length = n+5) :
    ∃ (raw : Bytes) (comp : UInt8) (stored : UInt32), raw.length = n ∧
      buf = raw ++ [comp] ++ leBytes 4 stored.toNat := by
  have hn : n < buf.length := by omega
  obtain ⟨stored,hs⟩ := word_of_bytes (buf.drop (n+1)) (by rw [List.length_drop]; omega)
  refine ⟨buf.take n,buf[n],stored,by rw [List.length_take]; omega,?_⟩
  rw [← hs,List.append_assoc,List.singleton_append,← List.drop_eq_getElem_cons hn,
    List.take_append_drop]

theorem decodeBlockContents_sealed (X : Crates) (raw : Bytes) (stored : UInt32) (offset : UInt64)
    (ty : ChecksumType) (base : UInt32) (h : raw.length+5 < 2^64) {computed : UInt32}
    (hc : computeChecksumWithLastByte X ty raw CompressionType.noCompression.toByte +
      checksumModifierForContext base offset = computed) :
    decodeBlockContents X (raw ++ [CompressionType.noCompression.toByte] ++ leBytes 4 stored.toNat)
        ⟨offset,UInt64.ofNat raw.length⟩ ty base =
      if ty ≠ .noChecksum ∧ computed ≠ stored then
        .error (.err ("block checksum mismatch at offset " ++ toString offset ++
          ": stored=0x" ++ hex 8 stored.toNat ++ " computed=0x" ++ hex 8 computed.toNat))
      else .ok raw := by
  have hsize : raw.length = (UInt64.ofNat raw.length).toNat := (toNat_ofNat64 (by omega)).symm
  have hparts := @decodeBlockContents_parts X ty base raw CompressionType.noCompression.toByte
    stored ⟨offset,UInt64.ofNat raw.length⟩ hsize h computed hc
  rw [hparts,CompressionType.fromByte_toByte]
  rfl

theorem decodeBlockContents_encode (X : Crates) (raw : Bytes) (offset : UInt64)
    (ty : ChecksumType) (base : UInt32) (h : raw.length+5 < 2^64) :
    decodeBlockContents X (encodeBlockWithTrailer X raw offset ty base)
      ⟨offset,UInt64.ofNat raw.length⟩ ty base = .ok raw := by
  rw [encodeBlockWithTrailer,decodeBlockContents_sealed X raw _ offset ty base h rfl,if_neg]
  exact fun hd => hd.2 rfl

structure ParsedBlock where
  contents : Bytes
  restarts : List UInt32
  deriving DecidableEq, Repr

def parseBlock (contents : Bytes) : Exec ParsedBlock := do
  if contents.length < 4 then
    throw (.err "block too small to contain restart trailer")
  let n := contents.length
  let numRestarts := (← readU32 contents (n-4)).toNat
  let restartsLen := numRestarts*4
  if n < 4+restartsLen then
    throw (.err "block restart array out of bounds")
  let restartsStart := n-4-restartsLen
  let restarts ← (List.range numRestarts).mapM (fun i => readU32 contents (restartsStart+i*4))
  pure ⟨contents,restarts⟩

def ParsedBlock.data (block : ParsedBlock) : Exec Bytes := do
  let restartsLen := block.restarts.length*4
  let entriesEnd ← checkedSub (← checkedSub block.contents.length 4) restartsLen
  slice block.contents 0 entriesEnd

/-- One turn of the loop of `for_each_entry`: the entry, the key buffer and the position
after it. -/
def readEntry (data keyScratch : Bytes) (pos : Nat) : Exec (Entry × Bytes × Nat) := do
  let (shared,pos) ← readVarint32 data pos "truncated entry: shared_bytes"
  let (unshared,pos) ← readVarint32 data pos "truncated entry: unshared_bytes"
  let (valueLen,pos) ← readVarint32 data pos "truncated entry: value_length"
  if shared.toNat > keyScratch.length then
    throw (.err "corrupt entry: shared_bytes exceeds last key length")
  let deltaEnd ← checkedAdd 64 pos unshared.toNat
  let keyDelta ← okOr (getRange data pos deltaEnd) "truncated entry: key_delta"
  let key := keyScratch.take shared.toNat ++ keyDelta
  let valueEnd ← checkedAdd 64 deltaEnd valueLen.toNat
  let value ← okOr (getRange data deltaEnd valueEnd) "truncated entry: value"
  pure ((key,value),key,valueEnd)

/-- What the callback was given, and how the loop ended. -/
def forEachEntry (block : ParsedBlock) : List Entry × Exec Unit :=
  match block.data with
  | .error e => ([],.error e)
  | .ok data => Cursor.walk (readEntry data) data.length .outOfFuel data.length [] 0

def getVarsigned64 (buf : Bytes) (pos : Nat) : Option Int64 × Nat :=
  match getVarint64 buf pos with
  | (some u,p) => (some ((u >>> 1) ^^^ (0-(u &&& 1))).toInt64,p)
  | (none,p) => (none,p)

/-- `a + b` on `i64`. -/
def checkedAddI64 (a b : Int64) : Exec Int64 :=
  if -2^63 ≤ a.toInt+b.toInt ∧ a.toInt+b.toInt < 2^63 then .ok (a+b) else .error .overflow

def readHandle (data : Bytes) (full : Bool) (lastHandle : Option BlockHandle) (pos : Nat) :
    Exec (BlockHandle × Nat) := do
  if full then
    let (offset,pos) ← readVarint64 data pos "truncated index value: offset"
    let (size,pos) ← readVarint64 data pos "truncated index value: size"
    pure (⟨offset,size⟩,pos)
  else
    let prev ← okOr lastHandle "delta-encoded index value with no previous handle"
    let (delta,pos) := getVarsigned64 data pos
    let delta ← okOr delta "truncated index value: size delta"
    let newSize ← checkedAddI64 prev.size.toInt64 delta
    let offset ← checkedAdd 64 (← checkedAdd 64 prev.offset.toNat prev.size.toNat)
      blockTrailerSize
    pure (⟨UInt64.ofNat offset,newSize.toUInt64⟩,pos)

/-- One turn of the loop of `for_each_index_entry`. -/
def readIndexEntry (data : Bytes) (restartOffsets : List Nat)
    (s : Bytes × Option BlockHandle) (pos : Nat) :
    Exec ((Bytes × BlockHandle) × (Bytes × Option BlockHandle) × Nat) := do
  let (keyScratch,lastHandle) := s
  -- A binary search of the sorted offsets succeeds when the position is among them.
  let atRestart := restartOffsets.contains pos
  let (shared,pos) ← readVarint32 data pos "truncated index entry: shared_bytes"
  let (unshared,pos) ← readVarint32 data pos "truncated index entry: non_shared_bytes"
  if shared.toNat > keyScratch.length then
    throw (.err "corrupt index entry: shared_bytes exceeds last key length")
  let deltaEnd ← checkedAdd 64 pos unshared.toNat
  let keyDelta ← okOr (getRange data pos deltaEnd) "truncated index entry: key_delta"
  let key := keyScratch.take shared.toNat ++ keyDelta
  let isShared := shared ≠ 0
  let (handle,pos) ← readHandle data (atRestart || !isShared) lastHandle deltaEnd
  pure ((key,handle),(key,some handle),pos)

def forEachIndexEntry (block : ParsedBlock) : List (Bytes × BlockHandle) × Exec Unit :=
  match block.data with
  | .error e => ([],.error e)
  | .ok data =>
    Cursor.walk (readIndexEntry data (block.restarts.map UInt32.toNat)) data.length .outOfFuel
      data.length ([],none) 0

end SstCompactor
