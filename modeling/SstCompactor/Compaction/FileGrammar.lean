import SstCompactor.Format.IndexGrammar
import SstCompactor.Compaction.Readers

/-!
The grammar of whole files, apart from any reader or writer of them, and that both readers accept
the files of the grammar, with the entries it gives them, and no other files.
-/

set_option autoImplicit false

namespace SstCompactor
open FixedWidth

section
variable (X : Crates)

inductive Unpacks : UInt8 → Bytes → Bytes → Prop where
  | plain {raw : Bytes} : Unpacks 0x00 raw raw
  | snappy {raw out : Bytes} : X.snappy raw = .ok out → Unpacks 0x01 raw out
  | lz4 {b : UInt8} {code payload out : Bytes} {size : UInt64} : b = 0x04 ∨ b = 0x05 →
      Varint64 code size → X.lz4 payload size.toNat = .ok out → Unpacks b (code ++ payload) out
  | zstd {code payload out : Bytes} {size : UInt64} :
      Varint64 code size → X.zstd payload size.toNat = .ok out → Unpacks 0x07 (code ++ payload) out

theorem splitUncompressedSizePrefix_iff {data payload : Bytes} {n : Nat} :
    splitUncompressedSizePrefix data = .ok (n,payload) ↔
      ∃ code size, Varint64 code size ∧ data = code ++ payload ∧ n = size.toNat := by
  constructor
  · intro h
    obtain ⟨⟨size,pos⟩,hs,h⟩ := bind_eq_ok h
    obtain ⟨rest,hr,h⟩ := bind_eq_ok h
    obtain ⟨rfl,rfl⟩ : size.toNat = n ∧ rest = payload := by simpa using h
    obtain ⟨code,hc,hd,rfl⟩ := readVarint64_iff.mp hs
    rw [List.drop_zero] at hd
    refine ⟨code,size,hc,?_,rfl⟩
    have hle : 0+code.length ≤ data.length := by
      have := congrArg List.length hd
      rw [List.length_append] at this
      omega
    rw [slice_of_le hle (Nat.le_refl _),Except.ok.injEq,
      List.take_of_length_le (by rw [List.length_drop])] at hr
    rw [hd,← hr]
  · rintro ⟨code,size,hc,rfl,rfl⟩
    have hread := readVarint64_code hc (d:=code ++ payload) (p:=0) rfl
      "failed to read uncompressed-size prefix"
    have hslice : slice (code ++ payload) (0+code.length) (code ++ payload).length = .ok payload :=
      slice_at (p:=code) (q:=[]) (by simp) (by simp) (by simp)
    simp only [splitUncompressedSizePrefix,hread,ok_bind,hslice,pure_eq_ok]

theorem CompressionType.fromByte_iff {b : UInt8} {ty : CompressionType} :
    CompressionType.fromByte b = .ok ty ↔ b = ty.toByte := by
  refine ⟨fun h => ?_,fun h => by rw [h,CompressionType.fromByte_toByte]⟩
  simp only [CompressionType.fromByte] at h
  repeat' split at h
  all_goals first | contradiction | (obtain rfl := Except.ok.inj h; assumption)

theorem codecResult_iff {heading : String} {r : Exec Bytes} {out : Bytes} :
    codecResult heading r = .ok out ↔ r = .ok out := by
  cases r with
  | ok v => simp [codecResult]
  | error e => cases e <;> simp [codecResult]

theorem sized_iff {data out : Bytes} {codec : Bytes → Nat → Exec Bytes}
    {heading : String} :
    (do let (n,payload) ← splitUncompressedSizePrefix data
        codecResult heading (codec payload n)) = .ok out ↔
      ∃ code payload size, Varint64 code size ∧ data = code ++ payload ∧
        codec payload size.toNat = .ok out := by
  constructor
  · intro h
    obtain ⟨⟨n,payload⟩,hs,h⟩ := bind_eq_ok h
    obtain ⟨code,size,hc,hd,rfl⟩ := splitUncompressedSizePrefix_iff.mp hs
    exact ⟨code,payload,size,hc,hd,codecResult_iff.mp h⟩
  · rintro ⟨code,payload,size,hc,hd,h⟩
    simp only [splitUncompressedSizePrefix_iff.mpr ⟨code,size,hc,hd,rfl⟩,ok_bind]
    exact codecResult_iff.mpr h

theorem decompress_sound {ty : CompressionType} {raw out : Bytes}
    (h : decompress X ty raw = .ok out) : Unpacks X ty.toByte raw out := by
  cases ty with
  | noCompression =>
    obtain rfl := Except.ok.inj h
    exact .plain
  | snappy => exact .snappy (codecResult_iff.mp h)
  | lz4 =>
    obtain ⟨code,payload,size,hc,rfl,ho⟩ := sized_iff.mp h
    exact .lz4 (.inl rfl) hc ho
  | lz4Hc =>
    obtain ⟨code,payload,size,hc,rfl,ho⟩ := sized_iff.mp h
    exact .lz4 (.inr rfl) hc ho
  | zstd =>
    obtain ⟨code,payload,size,hc,rfl,ho⟩ := sized_iff.mp h
    exact .zstd hc ho
  | zlib => contradiction
  | bzip2 => contradiction
  | xpress => contradiction

theorem Unpacks.decompress {b : UInt8} {raw out : Bytes} (h : Unpacks X b raw out) :
    ∃ ty, CompressionType.fromByte b = .ok ty ∧ decompress X ty raw = .ok out := by
  cases h with
  | plain => exact ⟨.noCompression,rfl,rfl⟩
  | snappy h => exact ⟨.snappy,rfl,codecResult_iff.mpr h⟩
  | lz4 hb hc ho =>
    rcases hb with rfl | rfl
    · exact ⟨.lz4,rfl,sized_iff.mpr ⟨_,_,_,hc,rfl,ho⟩⟩
    · exact ⟨.lz4Hc,rfl,sized_iff.mpr ⟨_,_,_,hc,rfl,ho⟩⟩
  | zstd hc ho => exact ⟨.zstd,rfl,sized_iff.mpr ⟨_,_,_,hc,rfl,ho⟩⟩

variable (ty : ChecksumType) (base : UInt32)

/-- Stored bytes, the compression byte and the checksum, which depends on the place of the
block. -/
inductive Sealed (handle : BlockHandle) : Bytes → Bytes → Prop where
  | mk {raw out : Bytes} {comp : UInt8} {stored : UInt32} :
      raw.length = handle.size.toNat →
      (ty = .noChecksum ∨ computeChecksumWithLastByte X ty raw comp +
        checksumModifierForContext base handle.offset = stored) →
      Unpacks X comp raw out →
      Sealed handle (raw ++ [comp] ++ leBytes 4 stored.toNat) out

variable {ty base} in
theorem decodeBlockContents_iff {buf out : Bytes} {handle : BlockHandle}
    (hl : buf.length < 2^63) :
    decodeBlockContents X buf handle ty base = .ok out ↔ Sealed X ty base handle buf out := by
  constructor
  · intro h
    by_cases hlen : buf.length = handle.size.toNat+5
    · obtain ⟨raw,comp,stored,hr,rfl⟩ := trailer_parts hlen
      rw [decodeBlockContents_parts X hr (by omega) rfl] at h
      split at h
      · contradiction
      · rename_i hsum
        obtain ⟨cty,hc,hd⟩ := bind_eq_ok h
        obtain rfl := CompressionType.fromByte_iff.mp hc
        rw [not_and_or,not_not,not_not] at hsum
        exact .mk hr hsum (decompress_sound X hd)
    · obtain ⟨total,htotal,h⟩ := bind_eq_ok h
      have ht := checkedAdd_eq_ok htotal
      rw [blockTrailerSize] at ht
      simp only [ht,ne_eq,hlen,not_false_eq_true,↓reduceIte,throw_eq_error,error_bind] at h
      contradiction
  · rintro ⟨hr,hsum,hu⟩
    rename_i raw comp stored
    obtain ⟨cty,hc,hd⟩ := hu.decompress
    simp only [List.length_append] at hl
    rw [decodeBlockContents_parts X hr (by omega) rfl,
      if_neg (by rw [not_and_or,not_not,not_not]; exact hsum),hc]
    exact hd

def BlockAt (file : Bytes) (handle : BlockHandle) (out : Bytes) : Prop :=
  ∃ pre buf post, file = pre ++ buf ++ post ∧ pre.length = handle.offset.toNat ∧
    Sealed X ty base handle buf out

variable {X ty base}

theorem Sealed.length {handle : BlockHandle} {buf out : Bytes}
    (h : Sealed X ty base handle buf out) : buf.length = handle.size.toNat+5 := by
  obtain ⟨hr,-,-⟩ := h
  simp [hr]

theorem BlockAt.inside {file out : Bytes} {handle : BlockHandle}
    (h : BlockAt X ty base file handle out) :
    handle.offset.toNat+handle.size.toNat+5 ≤ file.length := by
  obtain ⟨pre,buf,post,rfl,hp,hs⟩ := h
  have := hs.length
  simp only [List.length_append]
  omega

theorem range_parts {file buf : Bytes} {a b : Nat} (h : getRange file a b = some buf) :
    ∃ pre post, file = pre ++ buf ++ post ∧ pre.length = a := by
  obtain ⟨hd,hb,hle⟩ := drop_of_getRange h
  refine ⟨file.take a,file.drop b,?_,by rw [List.length_take]; omega⟩
  rw [List.append_assoc,← hd,List.take_append_drop]

theorem blockAt_iff {file out : Bytes} {handle : BlockHandle} (hl : file.length < 2^63) :
    BlockAt X ty base file handle out ↔
      handle.offset.toNat+handle.size.toNat+5 < 2^64 ∧
      ∃ buf, getRange file handle.offset.toNat (handle.offset.toNat+(handle.size.toNat+5)) =
        some buf ∧ decodeBlockContents X buf handle ty base = .ok out := by
  constructor
  · intro h
    have hin := h.inside
    obtain ⟨pre,buf,post,hf,hp,hs⟩ := h
    have hlen := hs.length
    have hfl := congrArg List.length hf
    simp only [List.length_append] at hfl
    refine ⟨by omega,buf,getRange_at hf hp.symm (by rw [hlen]),?_⟩
    exact (decodeBlockContents_iff X (by omega)).mpr hs
  · rintro ⟨-,buf,hg,hd⟩
    obtain ⟨pre,post,hf,hp⟩ := range_parts hg
    have hfl := congrArg List.length hf
    simp only [List.length_append] at hfl
    exact ⟨pre,buf,post,hf,hp,(decodeBlockContents_iff X (by omega)).mp hd⟩

theorem readBlockContents_iff {reader : FileReader} {handle : BlockHandle} {out : Bytes} :
    readBlockContents X reader ty base handle = .ok out ↔
      BlockAt X ty base reader.contents handle out := by
  have hlt := reader.length_lt
  rw [blockAt_iff hlt]
  constructor
  · intro h
    obtain ⟨len,hlen,h⟩ := bind_eq_ok h
    obtain ⟨buf,hbuf,h⟩ := bind_eq_ok h
    have := checkedAdd_eq_ok hlen
    rw [blockTrailerSize] at this
    subst this
    rw [FileReader.readAt] at hbuf
    split at hbuf
    · rename_i b hg
      obtain rfl := Except.ok.inj hbuf
      have hle := (drop_of_getRange hg).2.2
      exact ⟨by omega,b,hg,h⟩
    · contradiction
  · rintro ⟨hno,buf,hg,hd⟩
    simp only [readBlockContents,blockReadLen,blockTrailerSize]
    rw [checkedAdd_of_lt (by omega),ok_bind,FileReader.readAt,hg]
    exact hd

theorem decodeBlockInMemory_iff {file : Bytes} (hl : file.length < 2^63) {ft : Footer}
    {handle : BlockHandle} {out : Bytes} :
    decodeBlockInMemory X file ft handle = .ok out ↔
      BlockAt X ft.checksumType ft.baseContextChecksum file handle out := by
  rw [blockAt_iff hl]
  constructor
  · intro h
    obtain ⟨len,hlen,h⟩ := bind_eq_ok h
    obtain ⟨stop,hstop,h⟩ := bind_eq_ok h
    obtain ⟨buf,hbuf,hd⟩ := bind_eq_ok h
    have h₁ := checkedAdd_eq_ok hlen
    have h₂ := checkedAdd_eq_ok hstop
    rw [blockTrailerSize] at h₁
    subst h₁ h₂
    have hg := okOr_eq_ok hbuf
    have hle := (drop_of_getRange hg).2.2
    exact ⟨by omega,buf,hg,hd⟩
  · rintro ⟨hno,buf,hg,hd⟩
    simp only [decodeBlockInMemory,blockReadLen,blockTrailerSize]
    rw [checkedAdd_of_lt (by omega),ok_bind,checkedAdd_of_lt (by omega),ok_bind,hg]
    exact hd

end

/-- The last 53 bytes of a file of version 6 or 7. The sixteen bytes `free` are not looked at, but
for the checksum. -/
def newTail (ty : ChecksumType) (stored base size : UInt32) (free : Bytes) (version : Nat) :
    Bytes :=
  [ty.byte] ++ (extendedMagic ++ (leBytes 4 stored.toNat ++ (leBytes 4 base.toNat ++
    (leBytes 4 size.toNat ++ (free ++ (List.replicate 8 0 ++ (leBytes 4 version ++
      leBytes 8 blockBasedTableMagic)))))))

/-- The last 53 bytes of a file of an older version, with the two handles in `part`. -/
def oldTail (ty : ChecksumType) (part : Bytes) (version : Nat) : Bytes :=
  [ty.byte] ++ (part ++ (leBytes 4 version ++ leBytes 8 blockBasedTableMagic))

def HandleThen (bytes : Bytes) (handle : BlockHandle) (rest : Bytes) : Prop :=
  ∃ a b, bytes = a ++ (b ++ rest) ∧ Varint64 a handle.offset ∧ Varint64 b handle.size

section
variable (X : Crates)

inductive FooterCode (n : Nat) : Bytes → Footer → Prop where
  | new {ty : ChecksumType} {stored base size : UInt32} {free : Bytes} {version : Nat} :
      free.length = 16 → 6 ≤ version ∧ version ≤ 7 → size.toNat+5 ≤ n →
      (ty = .noChecksum ∨ computeChecksumPlain X ty (newTail ty 0 base size free version) +
        checksumModifierForContext base (UInt64.ofNat n) = stored) →
      FooterCode n (newTail ty stored base size free version) ⟨blockBasedTableMagic,version,ty,
        ⟨UInt64.ofNat (n-5-size.toNat),UInt64.ofNat size.toNat⟩,none,5,base⟩
  | old {ty : ChecksumType} {part mid rest : Bytes} {version : Nat}
      {metaindex index : BlockHandle} :
      part.length = 40 → 2 ≤ version ∧ version ≤ 5 → HandleThen part metaindex mid →
      HandleThen mid index rest →
      FooterCode n (oldTail ty part version)
        ⟨blockBasedTableMagic,version,ty,metaindex,some index,5,0⟩

variable {X}

theorem drop_next {d m q : Bytes} {a b : Nat} (h : d.drop a = m ++ q) (hb : a+m.length = b) :
    d.drop b = q := by
  rw [← hb]
  exact drop_add_length h

theorem newTail_length (ty : ChecksumType) (stored base size : UInt32) {free : Bytes}
    (version : Nat) (h : free.length = 16) :
    (newTail ty stored base size free version).length = 53 := by
  simp [newTail,extendedMagic,h]

theorem oldTail_fields {ty : ChecksumType} {part : Bytes} {version : Nat} (h : part.length = 40)
    {tail : Bytes} (ht : tail = oldTail ty part version) :
    tail.length = 53 ∧ (tail.drop 45).take 8 = leBytes 8 blockBasedTableMagic ∧
    (tail.drop 41).take 4 = leBytes 4 version ∧ tail[0]? = some ty.byte ∧
    (tail.drop 1).take 40 = part := by
  rw [oldTail] at ht
  have h₁ := drop_next (a:=0) ht (b:=1) rfl
  have h₄₁ := drop_next h₁ (b:=41) (by rw [h])
  have h₄₅ := drop_next h₄₁ (b:=45) (by rw [leBytes_length])
  refine ⟨by rw [ht]; simp [h],?_,?_,by rw [ht]; rfl,?_⟩
  · rw [h₄₅,List.take_of_length_le (by rw [leBytes_length])]
  · rw [h₄₁,List.take_left' (leBytes_length 4 _)]
  · rw [h₁,List.take_left' h]

theorem word_of_drop {d q : Bytes} {a : Nat} {v : UInt32} (h : d.drop a = leBytes 4 v.toNat ++ q) :
    word d a = v := by
  rw [word,h,List.take_left' (leBytes_length 4 _),ofLe_leBytes_of_lt v.toNat_lt,UInt32.ofNat_toNat]

theorem newTail_fields {ty : ChecksumType} {stored base size : UInt32} {free : Bytes}
    {version : Nat} (h : free.length = 16) {tail : Bytes}
    (ht : tail = newTail ty stored base size free version) :
    (tail.drop 45).take 8 = leBytes 8 blockBasedTableMagic ∧
    (tail.drop 41).take 4 = leBytes 4 version ∧ tail[0]? = some ty.byte ∧
    (tail.drop 1).take 4 = extendedMagic ∧ word tail 5 = stored ∧ word tail 9 = base ∧
    word tail 13 = size ∧ (tail.drop 33).take 8 = List.replicate 8 0 ∧
    tail.take 5 ++ List.replicate 4 0 ++ tail.drop 9 = newTail ty 0 base size free version := by
  rw [newTail] at ht
  have h₁ := drop_next (a:=0) ht (b:=1) rfl
  have h₅ := drop_next h₁ (b:=5) rfl
  have h₉ := drop_next h₅ (b:=9) (by rw [leBytes_length])
  have h₁₃ := drop_next h₉ (b:=13) (by rw [leBytes_length])
  have h₁₇ := drop_next h₁₃ (b:=17) (by rw [leBytes_length])
  have h₃₃ := drop_next h₁₇ (b:=33) (by rw [h])
  have h₄₁ := drop_next h₃₃ (b:=41) (by rw [List.length_replicate])
  have h₄₅ := drop_next h₄₁ (b:=45) (by rw [leBytes_length])
  have h0 : leBytes 4 (0 : UInt32).toNat = List.replicate 4 0 := by decide
  have hfive : tail.take 5 = [ty.byte] ++ extendedMagic := by rw [ht]; rfl
  refine ⟨?_,?_,by rw [ht]; rfl,?_,word_of_drop h₅,word_of_drop h₉,word_of_drop h₁₃,?_,?_⟩
  · rw [h₄₅,List.take_of_length_le (by rw [leBytes_length])]
  · rw [h₄₁,List.take_left' (leBytes_length 4 _)]
  · rw [h₁]
    rfl
  · rw [h₃₃,List.take_left' (List.length_replicate)]
  · rw [h₉,hfive,newTail,h0]
    simp only [List.append_assoc]

theorem drop_take_drop (d : Bytes) (a n : Nat) :
    d.drop a = (d.drop a).take n ++ d.drop (a+n) := by
  rw [← List.drop_drop,List.take_append_drop]

theorem take_four_word {d : Bytes} {a : Nat} (h : a+4 ≤ d.length) :
    (d.drop a).take 4 = leBytes 4 (word d a).toNat := by
  have hl : ((d.drop a).take 4).length = 4 := by
    simp only [List.length_take,List.length_drop]
    omega
  have hlt := ofLe_lt ((d.drop a).take 4)
  rw [hl] at hlt
  rw [word,toNat_ofNat32 hlt]
  conv_lhs => rw [← leBytes_ofLe ((d.drop a).take 4),hl]

theorem take_ofLe {d : Bytes} {a n v : Nat} (h : a+n ≤ d.length)
    (hv : ofLe ((d.drop a).take n) = v) : (d.drop a).take n = leBytes n v := by
  have hl : ((d.drop a).take n).length = n := by
    simp only [List.length_take,List.length_drop]
    omega
  rw [← hv]
  conv_lhs => rw [← leBytes_ofLe ((d.drop a).take n),hl]

theorem ChecksumType.fromByte_iff {b : UInt8} {ty : ChecksumType} :
    ChecksumType.fromByte b = some ty ↔ b = ty.byte := by
  refine ⟨fun h => ?_,fun h => by rw [h,ChecksumType.fromByte_byte]⟩
  simp only [ChecksumType.fromByte] at h
  repeat' split at h
  all_goals first | contradiction | (obtain rfl := Option.some.inj h; assumption)

section
variable {tail : Bytes} {ty : ChecksumType} (hlen : tail.length = 53)
  (hty : tail[0]? = some ty.byte) (hm : ofLe ((tail.drop 45).take 8) = blockBasedTableMagic)
include hlen hty hm

omit hlen hm in
theorem tail_first : tail = [ty.byte] ++ tail.drop 1 := by
  cases tail with
  | nil => simp at hty
  | cons b bs =>
    obtain rfl : b = ty.byte := by simpa using hty
    rfl

omit hty in
theorem tail_magic : tail.drop 45 = leBytes 8 blockBasedTableMagic := by
  have h := take_ofLe (a:=45) (n:=8) (by omega) hm
  rwa [List.take_of_length_le (by rw [List.length_drop]; omega)] at h

theorem oldTail_of_fields :
    tail = oldTail ty ((tail.drop 1).take 40) (ofLe ((tail.drop 41).take 4)) := by
  have hv := take_ofLe (a:=41) (n:=4) (d:=tail) (by omega) rfl
  rw [oldTail,← hv,← tail_magic hlen hm,← drop_take_drop tail 41 4,← drop_take_drop tail 1 40]
  exact tail_first hty

theorem newTail_of_fields (he : (tail.drop 1).take 4 = extendedMagic)
    (hr : ofLe ((tail.drop 33).take 8) = 0) :
    tail = newTail ty (word tail 5) (word tail 9) (word tail 13) ((tail.drop 17).take 16)
      (ofLe ((tail.drop 41).take 4)) := by
  have h0 : leBytes 8 0 = List.replicate 8 0 := by decide
  have hz := take_ofLe (a:=33) (n:=8) (by omega) hr
  rw [h0] at hz
  have hv := take_ofLe (a:=41) (n:=4) (d:=tail) (by omega) rfl
  have hword := fun (a : Nat) (ha : a+4 ≤ 53) => take_four_word (d:=tail) (a:=a) (by omega)
  rw [newTail,← hv,← tail_magic hlen hm,← drop_take_drop tail 41 4,← hz,
    ← drop_take_drop tail 33 8,← drop_take_drop tail 17 16,← hword 13 (by decide),
    ← drop_take_drop tail 13 4,← hword 9 (by decide),← drop_take_drop tail 9 4,
    ← hword 5 (by decide),← drop_take_drop tail 5 4,← he,← drop_take_drop tail 1 4]
  exact tail_first hty

end

theorem decodeBlockHandle_sound {buf : Bytes} {p q : Nat} {handle : BlockHandle}
    (h : decodeBlockHandle buf p = some (handle,q)) :
    HandleThen (buf.drop p) handle (buf.drop q) := by
  simp only [decodeBlockHandle,Option.bind_eq_bind,Option.bind_eq_some_iff,Option.pure_def,
    Option.some.injEq,Prod.mk.injEq] at h
  obtain ⟨offset,ho,size,hs,rfl,rfl⟩ := h
  obtain ⟨a,ha,hda,hqa⟩ :=
    getVarint64_iff.mp (Prod.ext ho rfl : getVarint64 buf p = (some offset,_))
  obtain ⟨b,hb,hdb,hqb⟩ := getVarint64_iff.mp (Prod.ext hs rfl : getVarint64 buf _ = (some size,_))
  exact ⟨a,b,by rw [hda,hdb],ha,hb⟩

theorem HandleThen.decode {buf rest : Bytes} {p : Nat} {handle : BlockHandle}
    (h : HandleThen (buf.drop p) handle rest) :
    ∃ q, decodeBlockHandle buf p = some (handle,q) ∧ buf.drop q = rest := by
  obtain ⟨a,b,hd,ha,hb⟩ := h
  have hd₂ := drop_add_length hd
  have hd₃ := drop_add_length hd₂
  exact ⟨p+a.length+b.length,by simp [decodeBlockHandle,ha.get hd,hb.get hd₂],hd₃⟩

variable {tail : Bytes} {fileSize : UInt64} {ft : Footer}

theorem decodeFooter_checked (hlen : tail.length = 53) (hf : 53 ≤ fileSize.toNat)
    (h : decodeFooter X tail fileSize = .ok ft) :
    ofLe ((tail.drop 45).take 8) = blockBasedTableMagic ∧
    (2 ≤ ofLe ((tail.drop 41).take 4) ∧ ofLe ((tail.drop 41).take 4) ≤ 7) ∧
    ∃ ty : ChecksumType, tail[0]? = some ty.byte := by
  obtain ⟨hm,hv,-⟩ := tail_fields hlen
  have hb := List.getElem?_eq_getElem (show 0 < tail.length by omega)
  simp only [decodeFooter,hlen,newVersionsEncodedLen,magicNumberLen,blockHandleMaxEncodedLen,
    Nat.reduceAdd,Nat.reduceMul,Nat.reduceSub,Nat.lt_irrefl,↓reduceIte,ok_bind,hm,hv,
    checkedSub_of_le hf,index_of_getElem? hb] at h
  by_cases hmagic : ofLe ((tail.drop 45).take 8) = blockBasedTableMagic
  · by_cases hver : 2 ≤ ofLe ((tail.drop 41).take 4) ∧ ofLe ((tail.drop 41).take 4) ≤ 7
    · cases hty : ChecksumType.fromByte tail[0] with
      | none =>
        simp only [ne_eq,hmagic,not_true_eq_false,↓reduceIte,hver,and_self,hty,okOr,
          error_bind] at h
        contradiction
      | some ty => exact ⟨hmagic,hver,ty,by rw [hb,ChecksumType.fromByte_iff.mp hty]⟩
    · simp only [ne_eq,hmagic,not_true_eq_false,↓reduceIte,hver,not_false_eq_true,
        throw_eq_error,error_bind] at h
      contradiction
  · simp only [ne_eq,hmagic,not_false_eq_true,↓reduceIte,throw_eq_error,error_bind] at h
    contradiction

theorem checkedSub_eq_ok {a b c : Nat} (h : checkedSub a b = .ok c) : b ≤ a ∧ c = a-b := by
  rw [checkedSub] at h
  split at h
  · rename_i hle
    exact ⟨hle,(Except.ok.inj h).symm⟩
  · contradiction

section
variable {n : Nat} (hf : fileSize.toNat = n+53)
include hf

theorem footerOffset_eq : fileSize.toNat-53 = n ∧ fileSize-53 = UInt64.ofNat n := by
  have hn : fileSize.toNat-53 = n := by omega
  exact ⟨hn,by rw [← ofNat_fileSize (by omega),hn]⟩

theorem decodeFooter_sound (hlen : tail.length = 53)
    (h : decodeFooter X tail fileSize = .ok ft) : FooterCode X n tail ft := by
  obtain ⟨hn,hoff⟩ := footerOffset_eq hf
  obtain ⟨hmagic,hver,ty,hty⟩ := decodeFooter_checked hlen (by omega) h
  rw [decodeFooter_typed hlen (by omega) hmagic hver hty (ChecksumType.fromByte_byte ty) rfl,
    hn,hoff] at h
  split at h
  · rename_i h6
    split at h
    · contradiction
    · rename_i hext
      split at h
      · contradiction
      · rename_i hsum
        obtain ⟨start,h₁,h⟩ := bind_eq_ok h
        obtain ⟨offset,h₂,h⟩ := bind_eq_ok h
        split at h
        · contradiction
        · rename_i hres
          obtain ⟨hle,rfl⟩ := checkedSub_eq_ok h₁
          obtain ⟨hle',rfl⟩ := checkedSub_eq_ok h₂
          obtain rfl := Except.ok.inj h
          have hfree : ((tail.drop 17).take 16).length = 16 := by
            rw [List.length_take,List.length_drop]
            omega
          have ht := newTail_of_fields hlen hty hmagic (not_not.mp hext) (not_not.mp hres)
          obtain ⟨-,-,-,-,-,-,-,-,hz⟩ := newTail_fields hfree ht
          rw [not_and_or,not_not,not_not,hz] at hsum
          have hcode := FooterCode.new (X:=X) (n:=n) hfree ⟨h6,hver.2⟩ (by omega) hsum
          rwa [← ht] at hcode
  · rename_i h6
    obtain ⟨⟨metaindex,p⟩,hm,h⟩ := bind_eq_ok h
    obtain ⟨⟨index,q⟩,hi,h⟩ := bind_eq_ok h
    obtain rfl := Except.ok.inj h
    have hmeta := decodeBlockHandle_sound (okOr_eq_ok hm)
    have hindex := decodeBlockHandle_sound (okOr_eq_ok hi)
    rw [List.drop_zero] at hmeta
    have hpart : ((tail.drop 1).take 40).length = 40 := by
      rw [List.length_take,List.length_drop]
      omega
    have hcode := @FooterCode.old X n ty _ _ _ _ _ _ hpart ⟨hver.1,by omega⟩ hmeta hindex
    rwa [← oldTail_of_fields hlen hty hmagic] at hcode

omit hf in
theorem FooterCode.length (h : FooterCode X n tail ft) : tail.length = 53 := by
  cases h with
  | new hfree _ _ _ => exact newTail_length _ _ _ _ _ hfree
  | old hp _ _ _ => exact (oldTail_fields hp rfl).1

theorem FooterCode.decode (h : FooterCode X n tail ft) :
    decodeFooter X tail fileSize = .ok ft := by
  obtain ⟨hn,hoff⟩ := footerOffset_eq hf
  have hm8 : ofLe (leBytes 8 blockBasedTableMagic) = blockBasedTableMagic := by decide
  have hv4 : ∀ {v : Nat}, v ≤ 7 → ofLe (leBytes 4 v) = v :=
    fun hv => ofLe_leBytes_of_lt (by omega)
  cases h with
  | @new ty stored base size free version hfree hver hroom hsum =>
    have hlen := newTail_length ty stored base size version hfree
    obtain ⟨hm,hv,hty,he,h5,h9,h13,hr,hz⟩ := newTail_fields hfree
      (rfl : newTail ty stored base size free version = _)
    generalize newTail ty stored base size free version = tail
      at hlen hm hv hty he h5 h9 h13 hr hz ⊢
    have hr8 : ofLe (List.replicate 8 0) = 0 := by decide
    have hsum' : ¬ (ty ≠ .noChecksum ∧ computeChecksumPlain X ty
        (newTail ty 0 base size free version) +
          checksumModifierForContext base (UInt64.ofNat n) ≠ stored) := by
      rwa [not_and_or,not_not,not_not]
    rw [decodeFooter_typed hlen (by omega) (by rw [hm,hm8]) (by rw [hv,hv4 hver.2]; omega) hty
      (ChecksumType.fromByte_byte ty) rfl,hn,hoff,hv,hv4 hver.2,if_pos hver.1,
      if_neg (not_not.mpr he),h5,h9,h13,hz,if_neg hsum',checkedSub_of_le (by omega),ok_bind,
      checkedSub_of_le (by omega),ok_bind,hr,hr8,if_neg (not_not.mpr rfl)]
  | @old ty part mid rest version metaindex index hp hver hm hi =>
    obtain ⟨hlen,hmagic,hv,hty,hpart⟩ := oldTail_fields hp (rfl : oldTail ty part version = _)
    generalize oldTail ty part version = tail at hlen hmagic hv hty hpart ⊢
    rw [← List.drop_zero (l:=part)] at hm
    obtain ⟨p,hmeta,rfl⟩ := hm.decode
    obtain ⟨q,hindex,-⟩ := hi.decode
    rw [decodeFooter_typed hlen (by omega) (by rw [hmagic,hm8])
      (by rw [hv,hv4 (by omega)]; omega) hty (ChecksumType.fromByte_byte ty) rfl,hv,
      hv4 (by omega),if_neg (by omega),hpart]
    simp only [hmeta,okOr,ok_bind,hindex,pure_eq_ok]

end

end

def EntriesIn (contents : Bytes) (es : List Entry) : Prop :=
  ∃ data restarts, Splits contents data restarts ∧ Denotes [] data es

theorem entriesIn_iff {contents : Bytes} (hl : contents.length < 2^63) {es : List Entry} :
    EntriesIn contents es ↔ ∃ block, parseBlock contents = .ok block ∧
      forEachEntry block = (es,.ok ()) := by
  constructor
  · rintro ⟨data,restarts,hs,hd⟩
    obtain ⟨hp,hdata⟩ := hs.parse
    have hread := walk_readsExactly (Nat.lt_of_le_of_lt hs.length_le hl)
    refine ⟨_,hp,?_⟩
    rw [forEachEntry,hdata]
    exact Prod.ext (hread.visited es hd) (hread.accepts.mpr ⟨es,hd⟩)
  · rintro ⟨block,hp,he⟩
    obtain ⟨data,hs,hdata⟩ := parseBlock_splits hp
    have hread := walk_readsExactly (Nat.lt_of_le_of_lt hs.length_le hl)
    rw [forEachEntry,hdata] at he
    simp only at he
    rw [he] at hread
    obtain ⟨es',hd⟩ := hread.accepts.mp rfl
    obtain rfl := hread.visited es' hd
    exact ⟨data,block.restarts,hs,hd⟩

inductive Names (name : Bytes) : List Entry → BlockHandle → Prop where
  | here {value rest : Bytes} {es : List Entry} {handle : BlockHandle} :
      HandleThen value handle rest → Names name ((name,value) :: es) handle
  | there {e : Entry} {es : List Entry} {handle : BlockHandle} :
      (e.1 = name → ∀ h rest, ¬ HandleThen e.2 h rest) → Names name es handle →
      Names name (e :: es) handle

theorem decodeMetaValueHandle_iff {value : Bytes} {handle : BlockHandle} :
    decodeMetaValueHandle value = some handle ↔ ∃ rest, HandleThen value handle rest := by
  rw [decodeMetaValueHandle]
  constructor
  · intro h
    obtain ⟨⟨h',q⟩,hd,rfl⟩ := Option.map_eq_some_iff.mp h
    exact ⟨_,decodeBlockHandle_sound hd⟩
  · rintro ⟨rest,h⟩
    rw [← List.drop_zero (l:=value)] at h
    obtain ⟨q,hd,-⟩ := h.decode
    rw [hd]
    rfl

theorem names_iff {name : Bytes} {es : List Entry} {handle : BlockHandle} :
    es.findSome? (fun e => if e.1 = name then decodeMetaValueHandle e.2 else none) =
      some handle ↔ Names name es handle := by
  induction es with
  | nil =>
    constructor
    · intro h
      simp at h
    · intro h
      nomatch h
  | cons e es ih =>
    obtain ⟨key,value⟩ := e
    by_cases hk : key = name
    · subst hk
      cases hv : decodeMetaValueHandle value with
      | some h' =>
        simp only [List.findSome?_cons,↓reduceIte,hv,Option.some.injEq]
        obtain ⟨rest,hr⟩ := decodeMetaValueHandle_iff.mp hv
        constructor
        · rintro rfl
          exact .here hr
        · intro h
          cases h with
          | here hh =>
            exact Option.some.inj (hv.symm.trans (decodeMetaValueHandle_iff.mpr ⟨_,hh⟩))
          | there hno _ => exact absurd hr (hno rfl _ _)
      | none =>
        simp only [List.findSome?_cons,↓reduceIte,hv,ih]
        have hno : ∀ h rest, ¬ HandleThen value h rest := by
          intro h rest hh
          rw [decodeMetaValueHandle_iff.mpr ⟨rest,hh⟩] at hv
          contradiction
        constructor
        · exact .there (fun _ => hno)
        · intro h
          cases h with
          | here hh => exact absurd hh (hno _ _)
          | there _ hrest => exact hrest
    · simp only [List.findSome?_cons,hk,↓reduceIte,ih]
      constructor
      · exact .there (fun h => absurd h hk)
      · intro h
        cases h with
        | here _ => exact absurd rfl hk
        | there _ hrest => exact hrest

structure Crates.Vecs (X : Crates) : Prop where
  snappy : ∀ raw out, X.snappy raw = .ok out → out.length < 2^63
  lz4 : ∀ raw n out, X.lz4 raw n = .ok out → out.length < 2^63
  zstd : ∀ raw n out, X.zstd raw n = .ok out → out.length < 2^63

section
variable {X : Crates} (hX : X.Vecs)
include hX

theorem Unpacks.length_lt {b : UInt8} {raw out : Bytes} (h : Unpacks X b raw out)
    (hr : raw.length < 2^63) : out.length < 2^63 := by
  cases h with
  | plain => exact hr
  | snappy h => exact hX.snappy _ _ h
  | lz4 _ _ h => exact hX.lz4 _ _ _ h
  | zstd _ h => exact hX.zstd _ _ _ h

theorem BlockAt.length_lt {ty : ChecksumType} {base : UInt32} {file out : Bytes}
    {handle : BlockHandle} (h : BlockAt X ty base file handle out) (hl : file.length < 2^63) :
    out.length < 2^63 := by
  have hin := h.inside
  obtain ⟨pre,buf,post,-,-,hs⟩ := h
  obtain ⟨hr,-,hu⟩ := hs
  exact hu.length_lt hX (by omega)

end

/-- Following a footer to the entries, with any way of fetching blocks. -/
def follow (fetch : BlockHandle → Exec Bytes) (ft : Footer) : Exec (List Entry) := do
  let metaindexRaw ← fetch ft.metaindexHandle
  let metaindex ← parseBlock metaindexRaw
  let indexHandle ← indexHandleOf ft metaindex
  let indexRaw ← fetch indexHandle
  let index ← parseBlock indexRaw
  let handles ← dataHandles index
  let (es,outcome) := visitBlocks fetch handles
  outcome
  pure es

theorem decodeSst_follow (X : Crates) (reader : FileReader) : decodeSst X reader = (do
    let ft ← readFooter X reader
    follow (readBlockContents X reader ft.checksumType ft.baseContextChecksum) ft) := by
  simp only [decodeSst,SstReader.openSst,follow,indexHandleOf,bind_assoc,pure_bind]
  have htail : ∀ (reader : FileReader) (ft : Footer) (metaindex index : ParsedBlock),
      (do let (es,outcome) := SstReader.forEachEntry X ⟨reader,ft,metaindex,index⟩
          outcome
          pure es) = (do
        let handles ← dataHandles index
        let (es,outcome) := visitBlocks
          (readBlockContents X reader ft.checksumType ft.baseContextChecksum) handles
        outcome
        pure es) := by
    intro reader ft metaindex index
    simp only [SstReader.forEachEntry]
    cases dataHandles index <;> rfl
  refine bind_congr (fun ft => bind_congr (fun raw => bind_congr (fun metaindex => ?_)))
  cases hx : ft.indexHandle with
  | some h => simp only [pure_bind,bind_assoc,htail]
  | none => simp only [pure_bind,bind_assoc,htail]

theorem loadArenaSource_follow (X : Crates) {reader : FileReader}
    (hl : footerTailLen ≤ reader.contents.length) : loadArenaSource X reader = (do
      let ft ← readFooter X reader
      let es ← follow (decodeBlockInMemory X reader.contents ft) ft
      pure (ArenaSource.ofEntries es)) := by
  obtain ⟨tail,ht,hft⟩ := readFooter_tail X hl
  simp only [loadArenaSource,reader.fileSize_toNat,FileReader.readAt_all,ioResult,ok_bind,
    checkedSub_of_le hl,ht,hft,follow,indexHandleOf,findMetaHandle_eq,bind_assoc,pure_bind]
  refine bind_congr (fun ft => bind_congr (fun raw => bind_congr (fun metaindex => ?_)))
  cases hx : ft.indexHandle with
  | some h => rfl
  | none =>
    simp only [bind_assoc]
    rfl

inductive Locates (ft : Footer) (metaindex : Bytes) : BlockHandle → Prop where
  | footer {handle : BlockHandle} {data : Bytes} {restarts : List UInt32} :
      ft.indexHandle = some handle → Splits metaindex data restarts → Locates ft metaindex handle
  | named {handle : BlockHandle} {es : List Entry} :
      ft.indexHandle = none → EntriesIn metaindex es →
      Names (strBytes indexBlockName) es handle → Locates ft metaindex handle

theorem locates_iff {ft : Footer} {raw : Bytes} (hr : raw.length < 2^63) {handle : BlockHandle} :
    Locates ft raw handle ↔
      ∃ metaindex, parseBlock raw = .ok metaindex ∧ indexHandleOf ft metaindex = .ok handle := by
  constructor
  · intro h
    cases h with
    | footer hx hs => exact ⟨_,hs.parse.1,by simp only [indexHandleOf,hx,pure_eq_ok]⟩
    | named hx he hn =>
      obtain ⟨metaindex,hp,hes⟩ := (entriesIn_iff hr).mp he
      refine ⟨metaindex,hp,?_⟩
      simp only [indexHandleOf,hx,SstReader.findMetaHandle,hes,ok_bind,pure_eq_ok,
        names_iff.mpr hn,okOr]
  · rintro ⟨metaindex,hp,hi⟩
    rw [indexHandleOf] at hi
    cases hx : ft.indexHandle with
    | some h =>
      simp only [hx,pure_eq_ok,Except.ok.injEq] at hi
      obtain ⟨data,hs,-⟩ := parseBlock_splits hp
      exact .footer (hi ▸ hx) hs
    | none =>
      simp only [hx,SstReader.findMetaHandle,bind_assoc] at hi
      obtain ⟨u,ho,hi⟩ := bind_eq_ok hi
      simp only [pure_eq_ok,ok_bind] at hi
      have hes : forEachEntry metaindex = ((forEachEntry metaindex).1,.ok ()) := Prod.ext rfl ho
      exact .named hx ((entriesIn_iff hr).mpr ⟨metaindex,hp,hes⟩) (names_iff.mp (okOr_eq_ok hi))

/-- The entries behind a footer, for a relation between the handles and contents of blocks. -/
inductive Reaches (stored : BlockHandle → Bytes → Prop) (ft : Footer) : List Entry → Prop where
  | mk {metaindex index : Bytes} {handle : BlockHandle} {listed : List (Bytes × BlockHandle)}
      {parts : List (List Entry)} :
      stored ft.metaindexHandle metaindex → Locates ft metaindex handle → stored handle index →
      HandlesIn index listed →
      List.Forall₂ (fun e es => ∃ raw, stored e.2 raw ∧ EntriesIn raw es) listed parts →
      Reaches stored ft parts.flatten

section
variable {fetch : BlockHandle → Exec Bytes} {stored : BlockHandle → Bytes → Prop}
  (hfetch : ∀ h raw, fetch h = .ok raw ↔ stored h raw)
  (hlen : ∀ h raw, stored h raw → raw.length < 2^63)
include hfetch hlen

theorem visitBlocks_iff {handles : List BlockHandle} {es : List Entry} :
    visitBlocks fetch handles = (es,.ok ()) ↔ ∃ parts,
      List.Forall₂ (fun h part => ∃ raw, stored h raw ∧ EntriesIn raw part) handles parts ∧
        es = parts.flatten := by
  induction handles generalizing es with
  | nil => simp [visitBlocks,eq_comm]
  | cons h handles ih =>
    constructor
    · intro hv
      rw [visitBlocks] at hv
      split at hv
      · simp at hv
      · rename_i block hb
        obtain ⟨raw,hr,hp⟩ := bind_eq_ok hb
        split at hv
        · simp at hv
        · rename_i part hpart
          obtain ⟨rfl,hok⟩ := Prod.mk.inj hv
          obtain ⟨parts,hparts,heq⟩ := ih.mp (Prod.ext rfl hok)
          have hstored := (hfetch h raw).mp hr
          refine ⟨part :: parts,.cons ⟨raw,hstored,?_⟩ hparts,congrArg (part ++ ·) heq⟩
          exact (entriesIn_iff (hlen h raw hstored)).mpr ⟨block,hp,hpart⟩
    · rintro ⟨parts,hall,rfl⟩
      cases hall with
      | @cons _ part _ parts hhead htail =>
        obtain ⟨raw,hstored,he⟩ := hhead
        obtain ⟨block,hp,hpart⟩ := (entriesIn_iff (hlen h raw hstored)).mp he
        have hrest := ih.mpr ⟨parts,htail,rfl⟩
        simp only [visitBlocks,(hfetch h raw).mpr hstored,ok_bind,hp,hpart,hrest,
          List.flatten_cons]

theorem follow_iff {ft : Footer} {es : List Entry} :
    follow fetch ft = .ok es ↔ Reaches stored ft es := by
  constructor
  · intro h
    obtain ⟨metaRaw,hm,h⟩ := bind_eq_ok h
    obtain ⟨metaindex,hmp,h⟩ := bind_eq_ok h
    obtain ⟨handle,hi,h⟩ := bind_eq_ok h
    obtain ⟨indexRaw,hx,h⟩ := bind_eq_ok h
    obtain ⟨index,hxp,h⟩ := bind_eq_ok h
    obtain ⟨handles,hh,h⟩ := bind_eq_ok h
    obtain ⟨u,ho,h⟩ := bind_eq_ok h
    have hms := (hfetch _ _).mp hm
    have hxs := (hfetch _ _).mp hx
    obtain ⟨u',hol,hh⟩ := bind_eq_ok hh
    obtain rfl := Except.ok.inj hh
    obtain ⟨parts,hparts,heq⟩ := (visitBlocks_iff hfetch hlen).mp (Prod.ext rfl ho)
    obtain rfl : parts.flatten = es := heq.symm.trans (Except.ok.inj h)
    rw [List.forall₂_map_left_iff] at hparts
    refine .mk hms ((locates_iff (hlen _ _ hms)).mpr ⟨metaindex,hmp,hi⟩) hxs
      ((handlesIn_iff (hlen _ _ hxs)).mpr ⟨index,hxp,Prod.ext rfl hol⟩) hparts
  · rintro ⟨hm,hloc,hx,hl,hparts⟩
    obtain ⟨metaindex,hmp,hi⟩ := (locates_iff (hlen _ _ hm)).mp hloc
    obtain ⟨index,hxp,hlist⟩ := (handlesIn_iff (hlen _ _ hx)).mp hl
    have hv := (visitBlocks_iff hfetch hlen).mpr
      ⟨_,(List.forall₂_map_left_iff (f:=Prod.snd)).mpr hparts,rfl⟩
    simp only [follow,(hfetch _ _).mpr hm,ok_bind,hmp,hi,(hfetch _ _).mpr hx,hxp,dataHandles,
      hlist,pure_eq_ok,hv]

end

/-- The files of the format: blocks, a footer, and the entries the footer leads to. -/
def SstFile (X : Crates) (file : Bytes) (es : List Entry) : Prop :=
  ∃ blocks tail ft, file = blocks ++ tail ∧ FooterCode X blocks.length tail ft ∧
    Reaches (BlockAt X ft.checksumType ft.baseContextChecksum file) ft es

theorem readFooter_cut (X : Crates) {reader : FileReader}
    (hl : footerTailLen ≤ reader.contents.length) :
    ∃ tail, tail = reader.contents.drop (reader.contents.length-53) ∧ tail.length = 53 ∧
      readFooter X reader = decodeFooter X tail reader.fileSize := by
  have h53 : footerTailLen = 53 := rfl
  obtain ⟨tail,ht,hft⟩ := readFooter_tail X hl
  have hcut : tail = reader.contents.drop (reader.contents.length-53) := by
    rw [slice_of_le (Nat.sub_le _ _) (Nat.le_refl _),Except.ok.injEq,h53,
      List.take_of_length_le (by rw [List.length_drop])] at ht
    exact ht.symm
  refine ⟨tail,hcut,?_,hft⟩
  rw [hcut,List.length_drop]
  omega

theorem readFooter_iff {X : Crates} {reader : FileReader} {ft : Footer} :
    readFooter X reader = .ok ft ↔ ∃ blocks tail, reader.contents = blocks ++ tail ∧
      FooterCode X blocks.length tail ft := by
  have hlt := reader.length_lt
  have hsize := reader.fileSize_toNat
  have h53 : footerTailLen = 53 := rfl
  by_cases hl : footerTailLen ≤ reader.contents.length
  · obtain ⟨tail,hcut,htl,hft⟩ := readFooter_cut X hl
    rw [hft]
    constructor
    · intro h
      refine ⟨reader.contents.take (reader.contents.length-53),tail,
        by rw [hcut,List.take_append_drop],?_⟩
      refine decodeFooter_sound ?_ htl h
      rw [hsize,List.length_take]
      omega
    · rintro ⟨blocks,tail',hc,hcode⟩
      have hsum := congrArg List.length hc
      rw [List.length_append] at hsum
      have hlen' := hcode.length
      have hsame : tail' = tail := by
        rw [hcut,hc,List.length_append,hlen',Nat.add_sub_cancel,List.drop_left]
      rw [← hsame]
      exact hcode.decode (by omega)
  · have hshort : reader.fileSize.toNat < footerTailLen := by omega
    constructor
    · intro h
      simp only [readFooter,hshort,↓reduceIte,throw_eq_error,error_bind] at h
      contradiction
    · rintro ⟨blocks,tail,hc,hcode⟩
      have hsum := congrArg List.length hc
      rw [List.length_append,hcode.length] at hsum
      omega

section
variable {X : Crates} (hX : X.Vecs) (reader : FileReader)
include hX

theorem decodeSst_grammar {es : List Entry} :
    decodeSst X reader = .ok es ↔ SstFile X reader.contents es := by
  rw [decodeSst_follow]
  have hlen := fun (ft : Footer) h raw
    (hb : BlockAt X ft.checksumType ft.baseContextChecksum reader.contents h raw) =>
      hb.length_lt hX reader.length_lt
  constructor
  · intro h
    obtain ⟨ft,hft,h⟩ := bind_eq_ok h
    obtain ⟨blocks,tail,hc,hcode⟩ := readFooter_iff.mp hft
    exact ⟨blocks,tail,ft,hc,hcode,
      (follow_iff (fun _ _ => readBlockContents_iff) (hlen ft)).mp h⟩
  · rintro ⟨blocks,tail,ft,hc,hcode,hreach⟩
    rw [readFooter_iff.mpr ⟨blocks,tail,hc,hcode⟩,ok_bind]
    exact (follow_iff (fun _ _ => readBlockContents_iff) (hlen ft)).mpr hreach

theorem loadArenaSource_grammar {source : ArenaSource} :
    loadArenaSource X reader = .ok source ↔
      ∃ es, SstFile X reader.contents es ∧ source = ArenaSource.ofEntries es := by
  have hlen := fun (ft : Footer) h raw
    (hb : BlockAt X ft.checksumType ft.baseContextChecksum reader.contents h raw) =>
      hb.length_lt hX reader.length_lt
  have hfetch : ∀ (ft : Footer) (h : BlockHandle) (raw : Bytes),
      decodeBlockInMemory X reader.contents ft h = .ok raw ↔
        BlockAt X ft.checksumType ft.baseContextChecksum reader.contents h raw :=
    fun _ _ _ => decodeBlockInMemory_iff reader.length_lt
  by_cases hl : footerTailLen ≤ reader.contents.length
  · rw [loadArenaSource_follow X hl]
    constructor
    · intro h
      obtain ⟨ft,hft,h⟩ := bind_eq_ok h
      obtain ⟨es,hes,h⟩ := bind_eq_ok h
      obtain ⟨blocks,tail,hc,hcode⟩ := readFooter_iff.mp hft
      exact ⟨es,⟨blocks,tail,ft,hc,hcode,(follow_iff (hfetch ft) (hlen ft)).mp hes⟩,
        (Except.ok.inj h).symm⟩
    · rintro ⟨es,⟨blocks,tail,ft,hc,hcode,hreach⟩,rfl⟩
      rw [readFooter_iff.mpr ⟨blocks,tail,hc,hcode⟩,ok_bind,
        (follow_iff (hfetch ft) (hlen ft)).mpr hreach]
      rfl
  · constructor
    · intro h
      rw [(readers_short X reader (Nat.not_le.mp hl)).1] at h
      contradiction
    · rintro ⟨es,⟨blocks,tail,ft,hc,hcode,-⟩,-⟩
      have hsum := congrArg List.length hc
      rw [List.length_append,hcode.length] at hsum
      exact absurd (hsum ▸ Nat.le_add_left _ _) hl

/-- The readers accept exactly the files of the format, and read in them what stands there. -/
theorem readers_accept_grammar :
    (∀ es, decodeSst X reader = .ok es ↔ SstFile X reader.contents es) ∧
    ∀ source, loadArenaSource X reader = .ok source ↔
      ∃ es, SstFile X reader.contents es ∧ source = ArenaSource.ofEntries es :=
  ⟨fun _ => decodeSst_grammar hX reader,fun _ => loadArenaSource_grammar hX reader⟩

end

theorem idle_vecs : Crates.idle.Vecs :=
  ⟨fun _ _ h => by contradiction,fun _ _ _ h => by contradiction,fun _ _ _ h => by contradiction⟩

theorem readers_accept_two :
    ∃ reader : FileReader, buildSst .idle plainOptions longAndShort = .ok reader.contents ∧
      SstFile .idle reader.contents longAndShort ∧
      loadArenaSource .idle reader = .ok (ArenaSource.ofEntries longAndShort) := by
  obtain ⟨reader,hb⟩ := longAndShort_opens
  obtain ⟨hread,hload⟩ := readers_accept_grammar idle_vecs reader
  have hfile := (hread _).mp (longAndShort_decodes hb)
  exact ⟨reader,hb,hfile,(hload _).mpr ⟨_,hfile,rfl⟩⟩

end SstCompactor
