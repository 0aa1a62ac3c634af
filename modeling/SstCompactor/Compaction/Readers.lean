import SstCompactor.Compaction.Load

set_option autoImplicit false

namespace SstCompactor
open FixedWidth

section
variable (X : Crates)

def indexHandleOf (ft : Footer) (metaindex : ParsedBlock) : Exec BlockHandle :=
  match ft.indexHandle with
  | some h => pure h
  | none => do
      let found ← SstReader.findMetaHandle metaindex indexBlockName
      okOr found "index block handle missing from metaindex"

/-- The handles in a file, as far as it can be followed: of the metaindex block, of the index
block, and of the data blocks it lists. -/
def handlesIn (reader : FileReader) : List BlockHandle :=
  match readFooter X reader with
  | .error _ => []
  | .ok ft =>
    let fetch := readBlockContents X reader ft.checksumType ft.baseContextChecksum
    ft.metaindexHandle ::
      match fetch ft.metaindexHandle >>= parseBlock >>= indexHandleOf ft with
      | .error _ => []
      | .ok indexHandle =>
        indexHandle ::
          match fetch indexHandle >>= parseBlock with
          | .error _ => []
          | .ok index => (forEachIndexEntry index).1.map Prod.snd

def BlockHandle.NoOverflow (h : BlockHandle) : Prop := h.offset.toNat+h.size.toNat+5 < 2^64

theorem fetch_alike (reader : FileReader) (ft : Footer) {h : BlockHandle} (hh : h.NoOverflow) :
    Alike Eq (decodeBlockInMemory X reader.contents ft h)
      (readBlockContents X reader ft.checksumType ft.baseContextChecksum h) := by
  have hlen : blockReadLen h = .ok (h.size.toNat+5) :=
    checkedAdd_of_lt (by simp only [BlockHandle.NoOverflow,blockTrailerSize] at hh ⊢; omega)
  have hstop : checkedAdd 64 h.offset.toNat (h.size.toNat+5) =
      .ok (h.offset.toNat+(h.size.toNat+5)) :=
    checkedAdd_of_lt (by simp only [BlockHandle.NoOverflow] at hh; omega)
  simp only [decodeBlockInMemory,readBlockContents,hlen,ok_bind,hstop,FileReader.readAt]
  cases getRange reader.contents h.offset.toNat (h.offset.toNat+(h.size.toNat+5)) with
  | none => exact .err _ _
  | some raw => exact Alike.refl _

theorem findMetaHandle_eq (metaindex : ParsedBlock) (name : String) :
    findMetaHandle metaindex name = SstReader.findMetaHandle metaindex name := by
  unfold findMetaHandle SstReader.findMetaHandle
  rcases forEachEntry metaindex with ⟨listed,outcome⟩
  cases outcome with
  | error e => rfl
  | ok _ =>
    simp only [ok_bind,pure_eq_ok]
    congr 2
    funext e
    by_cases he : e.1 = strBytes name
    · simp only [he,↓reduceIte,decodeMetaValueHandle,decodeBlockHandle]
      rcases getVarint64 e.2 0 with ⟨offset,p⟩
      cases offset with
      | none => rfl
      | some offset =>
        simp only
        rcases getVarint64 e.2 p with ⟨size,q⟩
        cases size <;> rfl
    · simp only [he,↓reduceIte]

theorem visitBlocks_alike {fetch fetch' : BlockHandle → Exec Bytes} {handles : List BlockHandle}
    (hf : ∀ h ∈ handles, Alike Eq (fetch h) (fetch' h)) :
    (visitBlocks fetch handles).1 = (visitBlocks fetch' handles).1 ∧
      Alike Eq (visitBlocks fetch handles).2 (visitBlocks fetch' handles).2 := by
  induction handles with
  | nil => exact ⟨rfl,.ok rfl⟩
  | cons h handles ih =>
    obtain ⟨ih₁,ih₂⟩ := ih (fun x hx => hf x (by simp [hx]))
    have hp : Alike Eq (fetch h >>= parseBlock) (fetch' h >>= parseBlock) :=
      (hf h (by simp)).bind (fun a b _ _ hab => hab ▸ Alike.refl _)
    simp only [visitBlocks]
    generalize fetch h >>= parseBlock = x at hp
    generalize fetch' h >>= parseBlock = y at hp
    cases hp with
    | err m n => exact ⟨rfl,.err m n⟩
    | same e => exact ⟨rfl,.same e⟩
    | @ok parsed _ hab =>
      subst hab
      simp only
      rcases forEachEntry parsed with ⟨es,outcome⟩
      cases outcome with
      | error e => exact ⟨rfl,.same e⟩
      | ok _ => exact ⟨by simp only [ih₁],ih₂⟩

section
variable {X} {reader : FileReader} {ft : Footer} (hft : readFooter X reader = .ok ft)
include hft

theorem handlesIn_meta : ft.metaindexHandle ∈ handlesIn X reader := by
  simp [handlesIn,hft]

variable {indexHandle : BlockHandle}
  (hi : readBlockContents X reader ft.checksumType ft.baseContextChecksum ft.metaindexHandle >>=
    parseBlock >>= indexHandleOf ft = .ok indexHandle)
include hi

theorem handlesIn_index : indexHandle ∈ handlesIn X reader := by
  simp [handlesIn,hft,hi]

theorem handlesIn_data {index : ParsedBlock}
    (hp : readBlockContents X reader ft.checksumType ft.baseContextChecksum indexHandle >>=
      parseBlock = .ok index) :
    ∀ e ∈ (forEachIndexEntry index).1, e.2 ∈ handlesIn X reader := by
  intro e he
  simp only [handlesIn,hft,hi,hp]
  exact List.mem_cons_of_mem _ (List.mem_cons_of_mem _ (List.mem_map_of_mem he))

end

theorem dataHandles_mem {index : ParsedBlock} {handles : List BlockHandle}
    (h : dataHandles index = .ok handles) :
    handles = (forEachIndexEntry index).1.map Prod.snd := by
  unfold dataHandles at h
  obtain ⟨_,_,h⟩ := bind_eq_ok h
  exact (Except.ok.inj h).symm

theorem follow_alike {reader : FileReader} {ft : Footer} (metaindex : ParsedBlock)
    {indexHandle : BlockHandle} (hi : indexHandle.NoOverflow)
    (hd : ∀ index, readBlockContents X reader ft.checksumType ft.baseContextChecksum indexHandle >>=
      parseBlock = .ok index → ∀ e ∈ (forEachIndexEntry index).1, e.2.NoOverflow) :
    Alike (fun source es => source = ArenaSource.ofEntries es)
      (do
        let indexRaw ← decodeBlockInMemory X reader.contents ft indexHandle
        let index ← parseBlock indexRaw
        let handles ← dataHandles index
        let (es,outcome) := visitBlocks (decodeBlockInMemory X reader.contents ft) handles
        outcome
        pure (ArenaSource.ofEntries es))
      (do
        let indexRaw ← readBlockContents X reader ft.checksumType ft.baseContextChecksum indexHandle
        let index ← parseBlock indexRaw
        let (es,outcome) := SstReader.forEachEntry X ⟨reader,ft,metaindex,index⟩
        outcome
        pure es) := by
  refine (fetch_alike X reader ft hi).bind ?_
  intro indexRaw _ _ hir he
  subst he
  refine (Alike.refl _).bind ?_
  intro index _ _ hip he
  subst he
  have hdata := hd index (by rw [hir]; exact hip)
  simp only [SstReader.forEachEntry]
  cases hh : dataHandles index with
  | error e => exact .same e
  | ok handles =>
    have hall : ∀ h ∈ handles, h.NoOverflow := by
      intro h hm
      rw [dataHandles_mem hh] at hm
      obtain ⟨e,he,rfl⟩ := List.mem_map.mp hm
      exact hdata e he
    obtain ⟨hes,hout⟩ := visitBlocks_alike (fun h hm => fetch_alike X reader ft (hall h hm))
    refine hout.bind ?_
    intro _ _ _ _ _
    exact .ok (congrArg ArenaSource.ofEntries hes)

theorem readers_alike {reader : FileReader} (hl : footerTailLen ≤ reader.contents.length)
    (hh : ∀ h ∈ handlesIn X reader, h.NoOverflow) :
    Alike (fun source es => source = ArenaSource.ofEntries es) (loadArenaSource X reader)
      (decodeSst X reader) := by
  have hsize := reader.fileSize_toNat
  obtain ⟨tail,ht,hft⟩ := readFooter_tail X hl
  simp only [loadArenaSource,hsize,FileReader.readAt_all,ioResult,ok_bind,checkedSub_of_le hl,ht,
    decodeSst,SstReader.openSst,bind_assoc]
  rw [hft]
  refine (Alike.refl _).bind ?_
  intro ft _ hok _ hft'
  subst hft'
  rw [hok] at hft
  refine (fetch_alike X reader ft (hh _ (handlesIn_meta hft))).bind ?_
  intro metaRaw _ _ hmr hmeta
  subst hmeta
  refine (Alike.refl _).bind ?_
  intro metaindex _ hmp _ hmeta
  subst hmeta
  have hfollow : ∀ indexHandle, indexHandleOf ft metaindex = .ok indexHandle → _ :=
    fun indexHandle hi =>
      have hih : readBlockContents X reader ft.checksumType ft.baseContextChecksum
          ft.metaindexHandle >>= parseBlock >>= indexHandleOf ft = .ok indexHandle := by
        rw [hmr,ok_bind,hmp,ok_bind,hi]
      follow_alike X metaindex (hh _ (handlesIn_index hft hih))
        (fun index hp e he => hh _ (handlesIn_data hft hih hp e he))
  cases hx : ft.indexHandle with
  | some indexHandle =>
    have hf := hfollow indexHandle (by simp [indexHandleOf,hx])
    simpa only [pure_eq_ok,ok_bind,bind_assoc] using hf
  | none =>
    simp only [bind_assoc]
    rw [findMetaHandle_eq]
    refine (Alike.refl _).bind ?_
    intro found _ hfound _ he
    subst he
    refine (Alike.refl _).bind ?_
    intro indexHandle _ hok _ he
    subst he
    have hf := hfollow indexHandle (by
      simp only [indexHandleOf,hx]
      exact (by rw [show indexBlockName = "rocksdb.index" from rfl,hfound]; exact hok))
    simpa only [pure_eq_ok,ok_bind,bind_assoc] using hf

theorem readers_short (reader : FileReader) (hl : reader.contents.length < footerTailLen) :
    loadArenaSource X reader = .error .overflow ∧
      decodeSst X reader = .error (.err "file too short to contain a footer") := by
  have hsize := reader.fileSize_toNat
  have hsub : checkedSub reader.contents.length footerTailLen = .error .overflow := by
    rw [checkedSub,if_neg (Nat.not_le.mpr hl)]
  constructor
  · simp only [loadArenaSource,hsize,FileReader.readAt_all,ioResult,ok_bind,hsub,error_bind]
  · simp only [decodeSst,SstReader.openSst,readFooter,hsize,hl,↓reduceIte,throw_eq_error,
      error_bind]

end

def emptyFile : FileReader := ⟨[],by decide⟩

end SstCompactor
