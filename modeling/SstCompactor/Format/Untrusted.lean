import SstCompactor.Format.Block

set_option autoImplicit false

namespace SstCompactor
open FixedWidth

/-- What the checksum of a block keeps of its offset: the sum of its two halves. -/
def foldOffset (offset : UInt64) : Nat := (offset.toNat % 2^32+offset.toNat/2^32) % 2^32

theorem foldOffset_toNat (offset : UInt64) :
    (offset.toUInt32+(offset >>> 32).toUInt32).toNat = foldOffset offset := by
  have hlt := offset.toNat_lt
  have hhigh : (offset >>> 32).toNat = offset.toNat/2^32 := by
    rw [UInt64.toNat_shiftRight]
    exact Nat.shiftRight_eq_div_pow _ 32
  rw [UInt32.toNat_add,UInt64.toNat_toUInt32,UInt64.toNat_toUInt32,hhigh,foldOffset]
  omega

theorem checksumModifier_eq_iff (base : UInt32) (o₁ o₂ : UInt64) :
    checksumModifierForContext base o₁ = checksumModifierForContext base o₂ ↔
      base = 0 ∨ foldOffset o₁ = foldOffset o₂ := by
  by_cases hb : base = 0
  · simp [checksumModifierForContext,hb]
  · simp only [checksumModifierForContext,hb,↓reduceIte,false_or,← foldOffset_toNat,
      UInt32.toNat_inj]
    exact ⟨fun h => (UInt32.xor_right_inj base).mp h,fun h => by rw [h]⟩

/-- A block read at another offset than it was written for is taken when the two checksums
cannot tell the offsets apart, and refused otherwise. -/
theorem decodeBlockContents_moved (X : Crates) (raw : ByteVec) {ty : ChecksumType}
    (base : UInt32) (o₁ o₂ : UInt64) (ht : ty ≠ .noChecksum) :
    (base = 0 ∨ foldOffset o₁ = foldOffset o₂ →
      decodeBlockContents X (encodeBlockWithTrailer X raw.bytes o₁ ty base)
        ⟨o₂,UInt64.ofNat raw.bytes.length⟩ ty base = .ok raw.bytes) ∧
    (¬ (base = 0 ∨ foldOffset o₁ = foldOffset o₂) →
      ∃ m, decodeBlockContents X (encodeBlockWithTrailer X raw.bytes o₁ ty base)
        ⟨o₂,UInt64.ofNat raw.bytes.length⟩ ty base = .error (.err m)) ∧
    (base ≠ 0 → o₁ ≠ o₂ → o₁.toNat < 2^32 → o₂.toNat < 2^32 →
      ∃ m, decodeBlockContents X (encodeBlockWithTrailer X raw.bytes o₁ ty base)
        ⟨o₂,UInt64.ofNat raw.bytes.length⟩ ty base = .error (.err m)) := by
  have hl := raw.length_lt
  have hdecode := decodeBlockContents_sealed X raw.bytes
    (computeChecksumWithLastByte X ty raw.bytes CompressionType.noCompression.toByte +
      checksumModifierForContext base o₁) o₂ ty base (by omega) rfl
  have hiff := checksumModifier_eq_iff base o₁ o₂
  have hrefused : ¬ (base = 0 ∨ foldOffset o₁ = foldOffset o₂) →
      ∃ m, decodeBlockContents X (encodeBlockWithTrailer X raw.bytes o₁ ty base)
        ⟨o₂,UInt64.ofNat raw.bytes.length⟩ ty base = .error (.err m) := by
    intro hne
    rw [encodeBlockWithTrailer,hdecode,if_pos]
    · exact ⟨_,rfl⟩
    · refine ⟨ht,fun hsum => hne (hiff.mp ?_)⟩
      exact ((UInt32.add_right_inj _).mp hsum).symm
  refine ⟨fun heq => ?_,hrefused,fun hb hne h₁ h₂ => hrefused ?_⟩
  · rw [encodeBlockWithTrailer,hdecode,if_neg]
    rw [hiff.mpr heq]
    exact fun hd => hd.2 rfl
  · rintro (h | h)
    · exact hb h
    · -- below 4 GiB the sum is the offset itself
      have hu : ∀ o : UInt64, o.toNat < 2^32 → foldOffset o = o.toNat := by
        intro o ho
        rw [foldOffset]
        omega
      rw [hu o₁ h₁,hu o₂ h₂] at h
      exact hne (UInt64.toNat_inj.mp h)

theorem decodeBlockContents_moved_eight :
    ChecksumType.xxH3 ≠ .noChecksum ∧ ∀ X : Crates, ∃ m,
      decodeBlockContents X (encodeBlockWithTrailer X [1,2,3] 0 .xxH3 1) ⟨8,3⟩ .xxH3 1 =
        .error (.err m) :=
  ⟨by decide,fun X => (decodeBlockContents_moved X ⟨[1,2,3],by decide⟩ 1 0 8
    (by decide)).2.2 (by decide) (by decide) (by decide) (by decide)⟩

theorem CompressionType.fromByte_returns (b : UInt8) : Returns (CompressionType.fromByte b) := by
  unfold CompressionType.fromByte
  repeat' split
  all_goals first | exact .ok _ | exact .err _

theorem codecResult_returns_iff {heading : String} {r : Exec Bytes} :
    Returns (codecResult heading r) ↔ Returns r := by
  cases r with
  | ok out => exact ⟨fun _ => .ok out,fun _ => .ok out⟩
  | error e =>
    cases e with
    | err m => exact ⟨fun _ => .err m,fun _ => .err _⟩
    | overflow | outOfRange | assertion | expect | foreign | outOfFuel => rfl

theorem splitUncompressedSizePrefix_returns (data : Bytes) :
    Returns (splitUncompressedSizePrefix data) := by
  refine (readVarint64_returns _ _ _).bind (fun ⟨size,pos⟩ hp => ?_)
  have hle := (readVarint64_moves hp).2
  simp only [slice_of_le hle (Nat.le_refl _),ok_bind]
  exact .ok _

section
variable {X : Crates} (hX : X.Total)
include hX

theorem decompress_returns (ty : CompressionType) (data : Bytes) :
    Returns (decompress X ty data) := by
  cases ty with
  | noCompression => exact .ok data
  | snappy => exact codecResult_returns_iff.mpr (hX.snappy _)
  | lz4 | lz4Hc =>
    exact (splitUncompressedSizePrefix_returns data).bind
      (fun _ _ => codecResult_returns_iff.mpr (hX.lz4 _ _))
  | zstd =>
    exact (splitUncompressedSizePrefix_returns data).bind
      (fun _ _ => codecResult_returns_iff.mpr (hX.zstd _ _))
  | zlib | bzip2 | xpress => exact .err _

end

inductive Intact (X : Crates) (ty : ChecksumType) (base : UInt32) (handle : BlockHandle) :
    Bytes → UInt8 → Bytes → Prop where
  | mk {raw : Bytes} {comp : UInt8} {stored : UInt32} :
      raw.length = handle.size.toNat →
      (ty = .noChecksum ∨ computeChecksumWithLastByte X ty raw comp +
        checksumModifierForContext base handle.offset = stored) →
      Intact X ty base handle (raw ++ [comp] ++ leBytes 4 stored.toNat) comp raw

theorem Intact.length {X : Crates} {ty : ChecksumType} {base : UInt32} {handle : BlockHandle}
    {buf raw : Bytes} {comp : UInt8} (h : Intact X ty base handle buf comp raw) :
    buf.length = handle.size.toNat+5 := by
  obtain ⟨hr,-⟩ := h
  simp [hr]

/-- Once its length can be computed, a block of any bytes is decoded or refused, but for its
decompression. -/
theorem decodeBlockContents_returns_iff {X : Crates} {ty : ChecksumType} {base : UInt32}
    {handle : BlockHandle} {buf : Bytes} (h : handle.size.toNat+5 < 2^64) :
    Returns (decodeBlockContents X buf handle ty base) ↔
      ∀ comp raw, Intact X ty base handle buf comp raw →
        ∀ cty, CompressionType.fromByte comp = .ok cty → Returns (decompress X cty raw) := by
  constructor
  · rintro hd _ _ ⟨hr,hsum⟩ cty hc
    rw [decodeBlockContents_parts X hr (by omega) rfl,
      if_neg (by rw [not_and_or,not_not,not_not]; exact hsum)] at hd
    exact (Returns.bind_iff.mp hd).2 cty hc
  · intro hall
    by_cases hlen : buf.length = handle.size.toNat+5
    · obtain ⟨raw,comp,stored,hr,rfl⟩ := trailer_parts hlen
      rw [decodeBlockContents_parts X hr (by omega) rfl]
      split
      · exact .err _
      · rename_i hsum
        rw [not_and_or,not_not,not_not] at hsum
        exact (CompressionType.fromByte_returns comp).bind (hall comp raw (.mk hr hsum))
    · simp only [decodeBlockContents,blockTrailerSize,checkedAdd_of_lt h,ok_bind,hlen,ne_eq,
        not_false_eq_true,↓reduceIte,throw_eq_error,error_bind]
      exact .err _

section
variable (X : Crates) (tail : Bytes) (fileSize : UInt64)

def word (bs : Bytes) (a : Nat) : UInt32 := UInt32.ofNat (ofLe ((bs.drop a).take 4))

structure Passes : Prop where
  magic : ofLe ((tail.drop 45).take 8) = blockBasedTableMagic
  version : 6 ≤ ofLe ((tail.drop 41).take 4) ∧ ofLe ((tail.drop 41).take 4) ≤ 7
  extended : (tail.drop 1).take 4 = extendedMagic
  checksum : ∃ b ty, tail[0]? = some b ∧ ChecksumType.fromByte b = some ty ∧
    (ty = .noChecksum ∨
      computeChecksumPlain X ty (tail.take 5 ++ List.replicate 4 0 ++ tail.drop 9) +
        checksumModifierForContext (word tail 9) (fileSize-53) = word tail 5)

/-- What is asked of `decode_footer`: no panic, and a metaindex block that ends at the
footer. -/
structure FooterSafe : Prop where
  returns : Returns (decodeFooter X tail fileSize)
  inside : ∀ ft, decodeFooter X tail fileSize = .ok ft → 6 ≤ ft.formatVersion →
    ft.metaindexHandle.offset.toNat+ft.metaindexHandle.size.toNat+5+53 = fileSize.toNat

variable {X tail fileSize}

theorem ofNat_fileSize (hf : 53 ≤ fileSize.toNat) :
    UInt64.ofNat (fileSize.toNat-53) = fileSize-53 := by
  apply UInt64.toNat_inj.mp
  have hlt := fileSize.toNat_lt
  have hle : (53 : UInt64) ≤ fileSize := UInt64.le_iff_toNat_le.mpr hf
  rw [UInt64.toNat_sub_of_le _ _ hle,toNat_ofNat64 (by omega)]
  rfl

theorem tail_fields (hlen : tail.length = 53) :
    slice tail 45 53 = .ok ((tail.drop 45).take 8) ∧
    slice tail 41 45 = .ok ((tail.drop 41).take 4) ∧
    slice tail 1 5 = .ok ((tail.drop 1).take 4) ∧
    slice tail 33 41 = .ok ((tail.drop 33).take 8) ∧
    slice tail 1 41 = .ok ((tail.drop 1).take 40) ∧ readU32 tail 5 = .ok (word tail 5) ∧
    readU32 tail 9 = .ok (word tail 9) ∧ readU32 tail 13 = .ok (word tail 13) := by
  refine ⟨slice_of_le ?_ ?_,slice_of_le ?_ ?_,slice_of_le ?_ ?_,slice_of_le ?_ ?_,
    slice_of_le ?_ ?_,readU32_of_le ?_,readU32_of_le ?_,readU32_of_le ?_⟩
  all_goals omega

theorem decodeFooter_typed (hlen : tail.length = 53) (hf : 53 ≤ fileSize.toNat)
    (hmagic : ofLe ((tail.drop 45).take 8) = blockBasedTableMagic)
    (hver : 2 ≤ ofLe ((tail.drop 41).take 4) ∧ ofLe ((tail.drop 41).take 4) ≤ 7)
    {b : UInt8} {ty : ChecksumType} (hb : tail[0]? = some b)
    (hty : ChecksumType.fromByte b = some ty) {computed : UInt32}
    (hc : computeChecksumPlain X ty (tail.take 5 ++ List.replicate 4 0 ++ tail.drop 9) +
      checksumModifierForContext (word tail 9) (fileSize-53) = computed) :
    decodeFooter X tail fileSize =
      if 6 ≤ ofLe ((tail.drop 41).take 4) then
        if (tail.drop 1).take 4 ≠ extendedMagic then
          .error (.err ("bad extended magic number: " ++ hexSlice ((tail.drop 1).take 4)))
        else if ty ≠ .noChecksum ∧ computed ≠ word tail 5 then
          .error (.err ("footer checksum mismatch at offset " ++ toString (fileSize.toNat-53) ++
            ": stored=0x" ++ hex 8 (word tail 5).toNat ++ " computed=0x" ++ hex 8 computed.toNat))
        else do
          let metaindexEnd ← checkedSub (fileSize.toNat-53) 5
          let metaindexOffset ← checkedSub metaindexEnd (word tail 13).toNat
          if ofLe ((tail.drop 33).take 8) ≠ 0 then
            .error (.err "file uses a future feature not supported by this reader")
          else .ok ⟨blockBasedTableMagic,ofLe ((tail.drop 41).take 4),ty,
            ⟨UInt64.ofNat metaindexOffset,UInt64.ofNat (word tail 13).toNat⟩,none,5,word tail 9⟩
      else (do
        let (metaindexHandle,p) ← okOr (decodeBlockHandle ((tail.drop 1).take 40) 0)
          "failed to decode metaindex handle"
        let (indexHandle,_) ← okOr (decodeBlockHandle ((tail.drop 1).take 40) p)
          "failed to decode index handle"
        pure ⟨blockBasedTableMagic,ofLe ((tail.drop 41).take 4),ty,metaindexHandle,
          some indexHandle,5,0⟩) := by
  obtain ⟨hm,hv,he,hr,hpart,h5,h9,h13⟩ := tail_fields hlen
  simp only [decodeFooter,hlen,newVersionsEncodedLen,magicNumberLen,blockHandleMaxEncodedLen,
    Nat.reduceAdd,Nat.reduceMul,Nat.reduceSub,Nat.lt_irrefl,↓reduceIte,pure_eq_ok,ok_bind,hm,
    hmagic,ne_eq,not_true_eq_false,hv,hver,and_self,checkedSub_of_le hf,index_of_getElem? hb,hty,
    okOr,ge_iff_le,he,h5,h9,h13,ofNat_fileSize hf,hc,hr,hpart,throw_eq_error,error_bind]

inductive Refused : Exec Footer → Prop where
  | err (m : String) : Refused (.error (.err m))
  | older {ft : Footer} : ft.formatVersion < 6 → Refused (.ok ft)

theorem Refused.bind {α : Type} {x : Exec α} {f : α → Exec Footer} (h : Returns x)
    (hf : ∀ a, x = .ok a → Refused (f a)) : Refused (x >>= f) := by
  rcases h with ⟨a,rfl⟩ | ⟨m,rfl⟩
  · exact hf a rfl
  · exact .err m

theorem Refused.safe (h : Refused (decodeFooter X tail fileSize)) :
    FooterSafe X tail fileSize := by
  generalize hr : decodeFooter X tail fileSize = r at h
  cases h with
  | err m =>
    refine ⟨hr ▸ .err m,fun ft hft => ?_⟩
    rw [hr] at hft
    contradiction
  | older hlt =>
    refine ⟨hr ▸ .ok _,fun ft hft h6 => ?_⟩
    obtain rfl := Except.ok.inj (hr.symm.trans hft)
    omega

theorem decodeFooter_refused (hlen : tail.length = 53) (hf : 53 ≤ fileSize.toNat)
    (hp : ¬ Passes X tail fileSize) : Refused (decodeFooter X tail fileSize) := by
  obtain ⟨hm,hv,-⟩ := tail_fields hlen
  have hb := List.getElem?_eq_getElem (show 0 < tail.length by omega)
  by_cases hmagic : ofLe ((tail.drop 45).take 8) = blockBasedTableMagic
  · by_cases hver : 2 ≤ ofLe ((tail.drop 41).take 4) ∧ ofLe ((tail.drop 41).take 4) ≤ 7
    · cases hty : ChecksumType.fromByte tail[0] with
      | none =>
        simp only [decodeFooter,hlen,newVersionsEncodedLen,magicNumberLen,
          blockHandleMaxEncodedLen,Nat.reduceAdd,Nat.reduceMul,Nat.reduceSub,Nat.lt_irrefl,
          ↓reduceIte,pure_eq_ok,ok_bind,hm,ne_eq,hmagic,hv,hver,and_self,not_true_eq_false,
          checkedSub_of_le hf,index_of_getElem? hb,hty,okOr,error_bind]
        exact .err _
      | some ty =>
        rw [decodeFooter_typed hlen hf hmagic hver hb hty rfl]
        split
        · rename_i h6
          split
          · exact .err _
          · rename_i hext
            split
            · exact .err _
            · rename_i hsum
              rw [not_and_or,not_not,not_not] at hsum
              exact absurd ⟨hmagic,⟨h6,hver.2⟩,not_not.mp hext,tail[0],ty,hb,hty,hsum⟩ hp
        · rename_i h6
          refine .bind (okOr_returns _ _) (fun _ _ => .bind (okOr_returns _ _) (fun _ _ => ?_))
          exact .older (Nat.not_le.mp h6)
    · simp only [decodeFooter,hlen,newVersionsEncodedLen,magicNumberLen,blockHandleMaxEncodedLen,
        Nat.reduceAdd,Nat.reduceMul,Nat.reduceSub,Nat.lt_irrefl,↓reduceIte,pure_eq_ok,ok_bind,hm,
        ne_eq,hmagic,hv,hver,not_true_eq_false,not_false_eq_true,throw_eq_error,error_bind]
      exact .err _
  · simp only [decodeFooter,hlen,newVersionsEncodedLen,magicNumberLen,blockHandleMaxEncodedLen,
      Nat.reduceAdd,Nat.reduceMul,Nat.reduceSub,Nat.lt_irrefl,↓reduceIte,pure_eq_ok,ok_bind,hm,
      ne_eq,hmagic,not_false_eq_true,throw_eq_error,error_bind]
    exact .err _

theorem decodeFooter_passed (hlen : tail.length = 53) (hf : 53 ≤ fileSize.toNat)
    (hp : Passes X tail fileSize) : ∃ ty, decodeFooter X tail fileSize = (do
      let metaindexEnd ← checkedSub (fileSize.toNat-53) 5
      let metaindexOffset ← checkedSub metaindexEnd (word tail 13).toNat
      if ofLe ((tail.drop 33).take 8) ≠ 0 then
        .error (.err "file uses a future feature not supported by this reader")
      else .ok ⟨blockBasedTableMagic,ofLe ((tail.drop 41).take 4),ty,
        ⟨UInt64.ofNat metaindexOffset,UInt64.ofNat (word tail 13).toNat⟩,none,5,word tail 9⟩) := by
  obtain ⟨b,ty,hb,hty,hsum⟩ := hp.checksum
  refine ⟨ty,?_⟩
  rw [decodeFooter_typed (X:=X) hlen hf hp.magic
    ⟨Nat.le_trans (by decide) hp.version.1,hp.version.2⟩ hb hty rfl,
    if_pos hp.version.1,if_neg (not_not.mpr hp.extended),
    if_neg (by rw [not_and_or,not_not,not_not]; exact hsum)]

theorem decodeFooter_returns_iff (hlen : tail.length = 53) (hf : 53 ≤ fileSize.toNat) :
    Returns (decodeFooter X tail fileSize) ↔
      (Passes X tail fileSize → (word tail 13).toNat+58 ≤ fileSize.toNat) := by
  by_cases hp : Passes X tail fileSize
  · obtain ⟨ty,hd⟩ := decodeFooter_passed hlen hf hp
    rw [hd,Returns.checkedSub_bind_iff,Returns.checkedSub_bind_iff]
    constructor
    · rintro ⟨h5,hroom,-⟩ _
      omega
    · intro h
      have hroom := h hp
      refine ⟨by omega,by omega,?_⟩
      split
      · exact .err _
      · exact .ok _
  · exact ⟨fun _ h => absurd h hp,fun _ => (decodeFooter_refused hlen hf hp).safe.returns⟩

/-- `decode_footer` is safe when a footer that passes its checks records a metaindex block the
file has room for. -/
theorem decodeFooter_safe_iff (hlen : tail.length = 53) (hf : 53 ≤ fileSize.toNat) :
    FooterSafe X tail fileSize ↔
      (Passes X tail fileSize → (word tail 13).toNat+58 ≤ fileSize.toNat) := by
  refine ⟨fun h => (decodeFooter_returns_iff hlen hf).mp h.returns,fun h => ?_⟩
  by_cases hp : Passes X tail fileSize
  · refine ⟨(decodeFooter_returns_iff hlen hf).mpr h,fun ft hft _ => ?_⟩
    have hroom := h hp
    have hsize := (word tail 13).toNat_lt
    have hfile := fileSize.toNat_lt
    obtain ⟨ty,hd⟩ := decodeFooter_passed hlen hf hp
    rw [hft,checkedSub_of_le (by omega),ok_bind,checkedSub_of_le (by omega),ok_bind] at hd
    split at hd
    · contradiction
    · obtain rfl := Except.ok.inj hd
      simp only
      rw [toNat_ofNat64 (by omega),toNat_ofNat64 (by omega)]
      omega
  · exact (decodeFooter_refused hlen hf hp).safe

end

def plainFooter (size : UInt32) : Bytes := footerBytes .noChecksum 0 0 size 7

theorem decodeFooter_safe_plainFooter :
    (plainFooter 30).length = 53 ∧ 53 ≤ (200 : UInt64).toNat ∧
    (FooterSafe .idle (plainFooter 30) 200 ↔ (Passes .idle (plainFooter 30) 200 →
      (word (plainFooter 30) 13).toNat+58 ≤ (200 : UInt64).toNat)) :=
  ⟨by decide,by decide,decodeFooter_safe_iff (by decide) (by decide)⟩

theorem decodeFooter_lone_footer :
    (plainFooter 0).length = 53 ∧ 53 ≤ (53 : UInt64).toNat ∧
      decodeFooter .idle (plainFooter 0) 53 = .error .overflow ∧
      ¬ FooterSafe .idle (plainFooter 0) 53 := by
  have hd : decodeFooter .idle (plainFooter 0) 53 = .error .overflow := by decide
  refine ⟨by decide,by decide,hd,fun h => ?_⟩
  obtain ⟨m,hm⟩ := h.returns.fault hd
  contradiction

end SstCompactor
