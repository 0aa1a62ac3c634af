import SstCompactor.Sst.Index

set_option autoImplicit false

namespace SstCompactor
open FixedWidth

theorem finish_length (es : List Entry) :
    (dataBlock es).finish.length = (dataBlock es).currentSizeEstimate := by
  rw [BlockBuilder.finish,blockImage_length,BlockBuilder.currentSizeEstimate]
  omega

theorem dataBlocks_full (entries : List Entry) :
    ∀ es ∈ (dataBlocks entries).dropLast, targetBlockSize ≤ (dataBlock es).finish.length := by
  intro es hes
  rw [finish_length]
  exact of_decide_eq_true (Greedy.cut_full [] entries es hes)

theorem run_finish_le {es : List Entry} (h : Greedy.Run blockFull es) {e : Entry}
    (he : es.getLast? = some e) :
    (dataBlock es).finish.length ≤ targetBlockSize+34+e.1.length+e.2.length := by
  obtain ⟨init,x,rfl,hinit⟩ := h
  obtain rfl : x = e := by simpa using he
  have happ := BlockBuilder.append_length_le (dataBlock init) x
  have hres := (BlockBuilder.append_sizes (dataBlock init) x).2
  have hsmall : (dataBlock init).currentSizeEstimate ≤ targetBlockSize := by
    by_cases hn : init = []
    · rw [hn]
      decide
    · exact Nat.le_of_not_le (of_decide_eq_false (hinit hn))
  rw [BlockBuilder.currentSizeEstimate] at hsmall
  rw [finish_length,dataBlock,BlockBuilder.ofEntries_snoc,BlockBuilder.currentSizeEstimate]
  rw [dataBlock] at happ hres hsmall
  omega

theorem forall₂_right {α β : Type} {R : α → β → Prop} {as : List α} {bs : List β}
    (h : List.Forall₂ R as bs) {b : β} (hb : b ∈ bs) : ∃ a ∈ as, R a b := by
  induction h with
  | nil => simp at hb
  | cons hab _ ih =>
    rcases List.mem_cons.mp hb with rfl | hb
    · exact ⟨_,by simp,hab⟩
    · obtain ⟨a,ha,hr⟩ := ih hb
      exact ⟨a,List.mem_cons_of_mem _ ha,hr⟩

theorem forall₂_dropLast {α β : Type} {R : α → β → Prop} {as : List α} {bs : List β}
    (h : List.Forall₂ R as bs) : List.Forall₂ R as.dropLast bs.dropLast := by
  rw [List.dropLast_eq_take,List.dropLast_eq_take,h.length_eq]
  exact List.forall₂_take _ h

section
variable (X : Crates) (opts : SstBuilderOptions)

theorem layOut_sizes (file : Bytes) (runs : List (List Entry))
    (h : (layOut X opts file runs).1.length < 2^64) :
    List.Forall₂ (fun es i => i.2.size.toNat = (dataBlock es).finish.length) runs
      (layOut X opts file runs).2 := by
  induction runs generalizing file with
  | nil => exact .nil
  | cons es runs ih =>
    obtain ⟨post,hp⟩ := layOut_extends X opts (writeBlock X opts file (dataBlock es).finish).1 runs
    have hl : (layOut X opts file (es :: runs)).1 =
        (layOut X opts (writeBlock X opts file (dataBlock es).finish).1 runs).1 := rfl
    have hle : file.length+(dataBlock es).finish.length < 2^64 := by
      rw [hl,hp,List.length_append,writeBlock_length] at h
      omega
    exact .cons (writeBlock_handle X opts file _ hle).2
      (ih (writeBlock X opts file (dataBlock es).finish).1 h)

theorem layOut_grows (file : Bytes) (runs : List (List Entry))
    (h : ∀ es ∈ runs.dropLast, targetBlockSize ≤ (dataBlock es).finish.length) :
    file.length+(targetBlockSize+5)*(runs.length-1) ≤ (layOut X opts file runs).1.length := by
  induction runs generalizing file with
  | nil => exact Nat.le_refl _
  | cons es runs ih =>
    have hl : (layOut X opts file (es :: runs)).1 =
        (layOut X opts (writeBlock X opts file (dataBlock es).finish).1 runs).1 := rfl
    by_cases hn : runs = []
    · subst hn
      rw [hl,layOut,writeBlock_length]
      simp only [List.length_singleton]
      omega
    · rw [List.dropLast_cons_of_ne_nil hn] at h
      have hrest := ih (writeBlock X opts file (dataBlock es).finish).1
        (fun x hx => h x (by simp [hx]))
      have hfull := h es (by simp)
      have hpos := List.length_pos_of_ne_nil hn
      rw [writeBlock_length] at hrest
      rw [hl,List.length_cons]
      have hmul : (targetBlockSize+5)*(runs.length+1-1) =
          (targetBlockSize+5)*(runs.length-1)+(targetBlockSize+5) := by
        rw [← Nat.mul_succ]
        congr 1
        omega
      omega

/-- The sizes of the blocks as the index of the file has them, and how many blocks that makes. -/
theorem blocks_sized {entries : List Entry} (hw : ∀ e ∈ entries, WellFormed e.1)
    (hf : ∀ e ∈ entries, Fits e) (hc : dataBlockCount (written opts entries) < 2^32) :
    ∃ bytes, buildSst X opts entries = .ok bytes ∧
      ∀ reader : FileReader, reader.contents = bytes →
        ∃ r index, SstReader.openSst X reader = .ok r ∧ r.indexEntries = .ok index ∧
          (∀ i ∈ index.dropLast, 4096 ≤ i.2.size.toNat) ∧
          (∀ i ∈ index, ∃ es e, r.blockEntries X i.2 = .ok es ∧ es.getLast? = some e ∧
            i.2.size.toNat ≤ 4096+34+e.1.length+e.2.length) ∧
          index.length ≤ reader.contents.length/4101+1 := by
  have hfit := written_fits opts hw hf
  obtain ⟨i,hb,hi⟩ := buildSst_image X opts (writtenEntries_ok opts hw)
  refine ⟨i.bytes,hb,fun reader hr => ?_⟩
  obtain ⟨hl,hs⟩ := i.served hr
  obtain ⟨post,hbytes⟩ := i.bytes_layOut
  obtain ⟨index,hidx,hlow,-⟩ := i.index_lists hl hfit
  obtain ⟨metaindex,hopen,-⟩ := openSst_ok X opts hi hr hidx
  have hruns := dataBlocks_runs _ hfit
  have hfull := dataBlocks_full (written opts entries)
  have hreads := hs.indexes_layOut hl [] post (dataBlocks (written opts entries)) hbytes hruns
  have hgrows := layOut_grows X opts [] (dataBlocks (written opts entries)) hfull
  have hsum := congrArg List.length hbytes
  rw [List.length_append] at hsum
  have hsizes := layOut_sizes X opts [] (dataBlocks (written opts entries)) (by omega)
  refine ⟨_,_,hopen,by simp only [SstReader.indexEntries,hlow hc,ok_bind,pure_eq_ok]; rfl,
    ?_,?_,?_⟩
  · intro i hi
    obtain ⟨es,hes,hsize⟩ := forall₂_right (forall₂_dropLast hsizes) hi
    rw [hsize]
    exact hfull es hes
  · intro i hi
    have hboth := List.Forall₂.mp (fun es i (hr : Indexes _ es i)
      (hs : i.2.size.toNat = (dataBlock es).finish.length) => And.intro hr hs) hreads hsizes
    obtain ⟨es,hes,⟨hblock,hlast⟩,hsize⟩ := forall₂_right hboth hi
    obtain ⟨e,he,-⟩ := Option.map_eq_some_iff.mp hlast
    refine ⟨es,e,hblock,he,?_⟩
    rw [hsize]
    exact run_finish_le (hruns es hes).1 he
  · have hlen := hsizes.length_eq
    rw [hr,← hlen]
    simp only [List.length_nil,targetBlockSize] at hgrows
    omega

end

theorem blocks_sized_two :
    ∃ bytes, buildSst .idle plainOptions longAndShort = .ok bytes ∧
      ∀ reader : FileReader, reader.contents = bytes →
        ∃ r index, SstReader.openSst .idle reader = .ok r ∧ r.indexEntries = .ok index ∧
          (∀ i ∈ index.dropLast, 4096 ≤ i.2.size.toNat) ∧
          (∀ i ∈ index, ∃ es e, r.blockEntries .idle i.2 = .ok es ∧ es.getLast? = some e ∧
            i.2.size.toNat ≤ 4096+34+e.1.length+e.2.length) ∧
          index.length ≤ reader.contents.length/4101+1 := by
  refine blocks_sized .idle plainOptions longAndShort_wellFormed longAndShort_fits ?_
  rw [written_none plainOptions rfl,longAndShort_blocks]
  decide

end SstCompactor
