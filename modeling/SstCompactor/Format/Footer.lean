import SstCompactor.Format.Varint

/-!
The footer, the last 53 bytes of a file, and the checksums shared by footer and blocks.
The hash and decompression crates are parameters, gathered in `Crates`.
-/

set_option autoImplicit false

namespace SstCompactor
open FixedWidth

/-- The third-party functions the code calls. A streaming hasher is given by its
seed and the list of its updates. -/
structure Crates where
  crc32c : Bytes → UInt32
  crc32cAppend : UInt32 → Bytes → UInt32
  xxh32 : Bytes → UInt32 → UInt32
  xxh32Stream : UInt32 → List Bytes → UInt32
  xxh64 : Bytes → UInt64 → UInt64
  xxh64Stream : UInt64 → List Bytes → UInt64
  xxh3 : Bytes → UInt64
  snappy : Bytes → Exec Bytes
  lz4 : Bytes → Nat → Exec Bytes
  zstd : Bytes → Nat → Exec Bytes
  /-- What the runtime says of a task that panicked, the number of the task left out. -/
  joinError : Fault → String
  /-- No empty input is a compressed stream with contents. -/
  snappy_nil : ∀ out, snappy [] = .ok out → out = []

/-- Stand-ins for files that are neither checksummed nor compressed, where none is called. -/
def Crates.idle : Crates where
  crc32c := fun _ => 0
  crc32cAppend := fun c _ => c
  xxh32 := fun _ s => s
  xxh32Stream := fun s _ => s
  xxh64 := fun _ s => s
  xxh64Stream := fun s _ => s
  xxh3 := fun _ => 0
  snappy := fun _ => .error (.err "snappy: corrupt input")
  lz4 := fun _ _ => .error (.err "lz4: corrupt input")
  zstd := fun _ _ => .error (.err "zstd: corrupt input")
  joinError := fun _ => "task panicked"
  snappy_nil := by intro out h; simp at h

/-- The decompressors end in a result or an error. They allocate the size a block declares, so
that the real ones also panic. -/
structure Crates.Total (X : Crates) : Prop where
  snappy : ∀ raw, Returns (X.snappy raw)
  lz4 : ∀ raw n, Returns (X.lz4 raw n)
  zstd : ∀ raw n, Returns (X.zstd raw n)

theorem idle_total : Crates.idle.Total :=
  ⟨fun _ => .err _,fun _ _ => .err _,fun _ _ => .err _⟩

def blockBasedTableMagic : Nat := 0x88e241b785f4cff7
def magicNumberLen : Nat := 8
def blockHandleMaxEncodedLen : Nat := 20
def newVersionsEncodedLen : Nat := 1+2*blockHandleMaxEncodedLen+4+magicNumberLen
def footerTailLen : Nat := newVersionsEncodedLen
def extendedMagic : Bytes := [0x3e,0x00,0x7a,0x00]

structure BlockHandle where
  offset : UInt64
  size : UInt64
  deriving DecidableEq, Repr

inductive ChecksumType where
  | noChecksum | crc32c | xxHash | xxHash64 | xxH3
  deriving DecidableEq, Repr

def ChecksumType.fromByte (b : UInt8) : Option ChecksumType :=
  if b = 0x0 then some .noChecksum
  else if b = 0x1 then some .crc32c
  else if b = 0x2 then some .xxHash
  else if b = 0x3 then some .xxHash64
  else if b = 0x4 then some .xxH3
  else none

def ChecksumType.byte : ChecksumType → UInt8
  | .noChecksum => 0x0
  | .crc32c => 0x1
  | .xxHash => 0x2
  | .xxHash64 => 0x3
  | .xxH3 => 0x4

theorem ChecksumType.fromByte_byte (t : ChecksumType) : fromByte t.byte = some t := by
  cases t <;> rfl

structure Footer where
  tableMagicNumber : Nat
  formatVersion : Nat
  checksumType : ChecksumType
  metaindexHandle : BlockHandle
  indexHandle : Option BlockHandle
  blockTrailerSize : Nat
  baseContextChecksum : UInt32
  deriving DecidableEq, Repr

def checksumModifierForContext (baseContextChecksum : UInt32) (offset : UInt64) : UInt32 :=
  if baseContextChecksum = 0 then 0
  else
    let lower := offset.toUInt32
    let upper := (offset >>> 32).toUInt32
    baseContextChecksum ^^^ (lower+upper)

/-- `rotate_right(15).wrapping_add(0xa282ead8)`. -/
def maskCrc32c (crc : UInt32) : UInt32 := ((crc >>> 15) ||| (crc <<< 17))+0xa282ead8

def modifyChecksumForLastByte (checksum : UInt32) (lastByte : UInt8) : UInt32 :=
  checksum ^^^ (lastByte.toUInt32*0x6b9083d9)

def computeChecksumPlain (X : Crates) (ty : ChecksumType) (data : Bytes) : UInt32 :=
  match ty with
  | .noChecksum => 0
  | .crc32c => maskCrc32c (X.crc32c data)
  | .xxHash => X.xxh32 data 0
  | .xxHash64 => (X.xxh64 data 0 &&& 0xffffffff).toUInt32
  | .xxH3 =>
    match data.getLast? with
    | none => 0
    | some last => modifyChecksumForLastByte (X.xxh3 data.dropLast &&& 0xffffffff).toUInt32 last

def hex (w n : Nat) : String :=
  let digits := Nat.toDigits 16 n
  String.ofList (List.replicate (w-digits.length) '0' ++ digits)

def hexSlice (bs : Bytes) : String :=
  "[" ++ ", ".intercalate (bs.map (fun b => hex 2 b.toNat)) ++ "]"

def decodeBlockHandle (buf : Bytes) (pos : Nat) : Option (BlockHandle × Nat) := do
  let (offset,p) := getVarint64 buf pos
  let offset ← offset
  let (size,p) := getVarint64 buf p
  let size ← size
  pure (⟨offset,size⟩,p)

def footerBytes (checksumType : ChecksumType) (checksum base metaindexSize : UInt32)
    (formatVersion : Nat) : Bytes :=
  [checksumType.byte] ++ extendedMagic ++ leBytes 4 checksum.toNat ++ (leBytes 4 base.toNat ++
    leBytes 4 metaindexSize.toNat ++ List.replicate 24 0 ++ leBytes 4 formatVersion ++
    leBytes 8 blockBasedTableMagic)

def encodeFooterV6Plus (X : Crates) (formatVersion : Nat) (checksumType : ChecksumType)
    (metaindexHandle : BlockHandle) (baseContextChecksum : UInt32) (footerOffset : UInt64) :
    Exec Bytes := do
  require (formatVersion ≥ 6)
  let metaindexSize ← expect
    (if metaindexHandle.size.toNat < 2^32 then some metaindexHandle.size.toUInt32 else none)
    "metaindex block size > 4GB"
  -- The checksum is taken over the buffer with its own field still zero.
  let buf := footerBytes checksumType 0 baseContextChecksum metaindexSize formatVersion
  let checksum := computeChecksumPlain X checksumType buf +
    checksumModifierForContext baseContextChecksum footerOffset
  pure (buf.take 5 ++ leBytes 4 checksum.toNat ++ buf.drop 9)

/-- `u32::from_le_bytes(bs[a..a + 4])`. -/
def readU32 (bs : Bytes) (a : Nat) : Exec UInt32 := do
  let r ← slice bs a (a+4)
  pure (UInt32.ofNat (ofLe r))

theorem readU32_at {d p q : Bytes} {a : Nat} (v : UInt32)
    (hd : d = p ++ leBytes 4 v.toNat ++ q) (ha : a = p.length) : readU32 d a = .ok v := by
  have hv : v.toNat < 256^4 := v.toNat_lt
  rw [readU32,slice_at hd ha (by simp)]
  simp [ofLe_leBytes_of_lt hv]

theorem readU32_of_le {d : Bytes} {a : Nat} (h : a+4 ≤ d.length) :
    readU32 d a = .ok (UInt32.ofNat (ofLe ((d.drop a).take 4))) := by
  rw [readU32,slice_of_le (Nat.le_add_right a 4) h,Nat.add_sub_cancel_left]
  rfl

theorem word_of_bytes (bs : Bytes) (h : bs.length = 4) :
    ∃ v : UInt32, bs = leBytes 4 v.toNat := by
  have hlt := ofLe_lt bs
  rw [h] at hlt
  refine ⟨UInt32.ofNat (ofLe bs),?_⟩
  rw [toNat_ofNat32 hlt,← h,leBytes_ofLe]

def decodeFooter (X : Crates) (tail : Bytes) (fileSize : UInt64) : Exec Footer := do
  if tail.length < newVersionsEncodedLen then
    throw (.err "footer tail shorter than minimum encoded length")
  let magicPos := tail.length-magicNumberLen
  let magic := ofLe (← slice tail magicPos (magicPos+8))
  if magic ≠ blockBasedTableMagic then
    throw (.err ("unsupported/unknown table magic number: 0x" ++ hex 16 magic ++
      " (only block-based tables supported)"))
  let blockTrailerSize := 5
  let formatVersion := ofLe (← slice tail (magicPos-4) magicPos)
  if ¬ (2 ≤ formatVersion ∧ formatVersion ≤ 7) then
    throw (.err ("unsupported format_version " ++ toString formatVersion))
  let footerOffset ← checkedSub fileSize.toNat newVersionsEncodedLen
  let checksumByte ← index tail 0
  let checksumType ← okOr (ChecksumType.fromByte checksumByte)
    ("unsupported checksum type byte " ++ toString checksumByte)
  if formatVersion ≥ 6 then
    let extMagic ← slice tail 1 5
    if extMagic ≠ extendedMagic then
      throw (.err ("bad extended magic number: " ++ hexSlice extMagic))
    let storedChecksum ← readU32 tail 5
    let baseContextChecksum ← readU32 tail 9
    let metaindexSize := (← readU32 tail 13).toNat
    let zeroed := tail.take 5 ++ List.replicate 4 0 ++ tail.drop 9
    let computed := computeChecksumPlain X checksumType zeroed +
      checksumModifierForContext baseContextChecksum (UInt64.ofNat footerOffset)
    if checksumType ≠ .noChecksum ∧ computed ≠ storedChecksum then
      throw (.err ("footer checksum mismatch at offset " ++ toString footerOffset ++
        ": stored=0x" ++ hex 8 storedChecksum.toNat ++ " computed=0x" ++ hex 8 computed.toNat))
    let metaindexEnd ← checkedSub footerOffset blockTrailerSize
    let metaindexOffset ← checkedSub metaindexEnd metaindexSize
    let reserved := ofLe (← slice tail 33 41)
    if reserved ≠ 0 then
      throw (.err "file uses a future feature not supported by this reader")
    pure ⟨magic,formatVersion,checksumType,
      ⟨UInt64.ofNat metaindexOffset,UInt64.ofNat metaindexSize⟩,none,blockTrailerSize,
      baseContextChecksum⟩
  else
    let part2 ← slice tail 1 (magicPos-4)
    let (metaindexHandle,p) ← okOr (decodeBlockHandle part2 0) "failed to decode metaindex handle"
    let (indexHandle,_) ← okOr (decodeBlockHandle part2 p) "failed to decode index handle"
    pure ⟨magic,formatVersion,checksumType,metaindexHandle,some indexHandle,blockTrailerSize,0⟩

theorem footerBytes_patch (ty : ChecksumType) (c d base size : UInt32) (version : Nat) :
    (footerBytes ty c base size version).take 5 ++ leBytes 4 d.toNat ++
      (footerBytes ty c base size version).drop 9 = footerBytes ty d base size version := by
  have hp : ([ty.byte] ++ extendedMagic).length = 5 := by simp [extendedMagic]
  have hm : ([ty.byte] ++ extendedMagic ++ leBytes 4 c.toNat).length = 9 := by
    rw [List.length_append,hp,leBytes_length]
  unfold footerBytes
  rw [List.drop_left' hm,List.append_assoc ([ty.byte] ++ extendedMagic) (leBytes 4 c.toNat),
    List.take_left' hp]

theorem footerBytes_length (ty : ChecksumType) (c base size : UInt32) (version : Nat) :
    (footerBytes ty c base size version).length = 53 := by
  simp [footerBytes,extendedMagic]

theorem encodeFooterV6Plus_ok (X : Crates) (ty : ChecksumType) {handle : BlockHandle}
    (base : UInt32) (footerOffset : UInt64) (hs : handle.size.toNat < 2^32) :
    encodeFooterV6Plus X 7 ty handle base footerOffset = .ok (footerBytes ty
      (computeChecksumPlain X ty (footerBytes ty 0 base handle.size.toUInt32 7) +
        checksumModifierForContext base footerOffset) base handle.size.toUInt32 7) := by
  have hv : require (decide (7 ≥ 6)) = .ok () := rfl
  simp only [encodeFooterV6Plus,hv,ok_bind,hs,↓reduceIte,expect,pure_eq_ok,footerBytes_patch]

theorem footerBytes_fields (ty : ChecksumType) (c base size : UInt32) {data : Bytes}
    (hd : data = footerBytes ty c base size 7) :
    slice data 45 53 = .ok (leBytes 8 blockBasedTableMagic) ∧ slice data 41 45 = .ok (leBytes 4 7) ∧
    index data 0 = .ok ty.byte ∧ slice data 1 5 = .ok extendedMagic ∧ readU32 data 5 = .ok c ∧
    readU32 data 9 = .ok base ∧ readU32 data 13 = .ok size ∧
    slice data 33 41 = .ok (List.replicate 8 0) := by
  subst hd
  refine ⟨?_,?_,by simp [footerBytes,index],?_,?_,?_,?_,?_⟩
  · exact slice_at (p:=[ty.byte] ++ extendedMagic ++ leBytes 4 c.toNat ++ leBytes 4 base.toNat ++
      leBytes 4 size.toNat ++ List.replicate 24 0 ++ leBytes 4 7) (q:=[])
      (by simp [footerBytes]) (by simp [extendedMagic]) (by simp)
  · exact slice_at (p:=[ty.byte] ++ extendedMagic ++ leBytes 4 c.toNat ++ leBytes 4 base.toNat ++
      leBytes 4 size.toNat ++ List.replicate 24 0) (q:=leBytes 8 blockBasedTableMagic)
      (by simp [footerBytes]) (by simp [extendedMagic]) (by simp)
  · exact slice_at (p:=[ty.byte]) (by rw [footerBytes,List.append_assoc]) rfl rfl
  · exact readU32_at (p:=[ty.byte] ++ extendedMagic) c rfl rfl
  · exact readU32_at (p:=[ty.byte] ++ extendedMagic ++ leBytes 4 c.toNat)
      (q:=leBytes 4 size.toNat ++ List.replicate 24 0 ++ leBytes 4 7 ++
        leBytes 8 blockBasedTableMagic) base (by simp [footerBytes]) (by simp [extendedMagic])
  · exact readU32_at (p:=[ty.byte] ++ extendedMagic ++ leBytes 4 c.toNat ++ leBytes 4 base.toNat)
      (q:=List.replicate 24 0 ++ leBytes 4 7 ++ leBytes 8 blockBasedTableMagic) size
      (by simp [footerBytes]) (by simp [extendedMagic])
  · exact slice_at (p:=[ty.byte] ++ extendedMagic ++ leBytes 4 c.toNat ++ leBytes 4 base.toNat ++
      leBytes 4 size.toNat ++ List.replicate 16 0) (q:=leBytes 4 7 ++
        leBytes 8 blockBasedTableMagic) (by simp [footerBytes,List.replicate])
      (by simp [extendedMagic]) (by simp)

/-- Reading undoes writing for a footer that stands right behind its metaindex block. -/
theorem decodeFooter_encode (X : Crates) (ty : ChecksumType) (handle : BlockHandle)
    (base : UInt32) (footerOffset : UInt64) {fileSize : UInt64} {bytes : Bytes}
    (hs : handle.size.toNat < 2^32)
    (ho : footerOffset.toNat = handle.offset.toNat+handle.size.toNat+5)
    (hf : fileSize.toNat = footerOffset.toNat+53)
    (he : encodeFooterV6Plus X 7 ty handle base footerOffset = .ok bytes) :
    bytes.length = 53 ∧ decodeFooter X bytes fileSize =
      .ok ⟨blockBasedTableMagic,7,ty,handle,none,5,base⟩ := by
  rw [encodeFooterV6Plus_ok X ty base footerOffset hs,Except.ok.injEq] at he
  generalize hc : computeChecksumPlain X ty (footerBytes ty 0 base handle.size.toUInt32 7) +
    checksumModifierForContext base footerOffset = checksum at he
  subst he
  have hlen := footerBytes_length ty checksum base handle.size.toUInt32 7
  refine ⟨hlen,?_⟩
  have hzero := footerBytes_patch ty checksum 0 base handle.size.toUInt32 7
  have hzb : leBytes 4 (0 : UInt32).toNat = List.replicate 4 0 := by decide
  rw [hzb] at hzero
  obtain ⟨hmagic,hversion,htype,hext,hstored,hbase,hmeta,hreserved⟩ :=
    footerBytes_fields ty checksum base handle.size.toUInt32 rfl
  generalize footerBytes ty checksum base handle.size.toUInt32 7 = data at *
  have hsize : handle.size.toUInt32.toNat = handle.size.toNat := by
    rw [UInt64.toNat_toUInt32]
    exact Nat.mod_eq_of_lt hs
  have hm8 : ofLe (leBytes 8 blockBasedTableMagic) = blockBasedTableMagic := by decide
  have hv4 : ofLe (leBytes 4 7) = 7 := by decide
  have hr8 : ofLe (List.replicate 8 0) = 0 := by decide
  have hnv : newVersionsEncodedLen = 53 := rfl
  have hml : magicNumberLen = 8 := rfl
  have h53 : ¬ (53 : Nat) < 53 := by decide
  have hver : ¬ ¬ (2 ≤ 7 ∧ 7 ≤ 7) := by decide
  have hge : (7 : Nat) ≥ 6 := by decide
  have hoff : checkedSub fileSize.toNat 53 = .ok footerOffset.toNat := by
    rw [checkedSub_of_le (by omega)]
    congr 1
    omega
  have hend : checkedSub footerOffset.toNat 5 =
      .ok (handle.offset.toNat+handle.size.toNat) := by
    rw [checkedSub_of_le (by omega)]
    congr 1
    omega
  have hstart : checkedSub (handle.offset.toNat+handle.size.toNat) handle.size.toNat =
      .ok handle.offset.toNat := by
    rw [checkedSub_of_le (by omega)]
    congr 1
    omega
  simp only [decodeFooter,hlen,hnv,hml,h53,↓reduceIte,pure_eq_ok,ok_bind,Nat.reduceSub,
    Nat.reduceAdd,hmagic,hm8,ne_eq,not_true_eq_false,hversion,hv4,hver,hoff,htype,
    ChecksumType.fromByte_byte,okOr,hge,hext,hstored,hbase,hmeta,hzero,UInt64.ofNat_toNat,hc,
    and_false,hsize,hend,hstart,hreserved,hr8]

end SstCompactor
