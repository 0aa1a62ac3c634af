import SstCompactor.Sst.RoundTrip

set_option autoImplicit false

namespace SstCompactor
open FixedWidth

theorem totalBytes_append (es fs : List Entry) :
    totalBytes (es ++ fs) = totalBytes es+totalBytes fs := by
  simp [totalBytes]

theorem length_le_dataBlockCount (entries : List Entry) :
    entries.length ≤ dataBlockCount entries*1366 := by
  refine Greedy.length_le_cut 1365 (fun c hc => ?_) entries
  have hf : ¬ (dataBlock c).currentSizeEstimate ≥ targetBlockSize := of_decide_eq_false hc
  have hs := (BlockBuilder.ofEntries_sizes dataBlockRestartInterval c).1
  simp only [dataBlock,BlockBuilder.currentSizeEstimate,targetBlockSize] at hf
  omega

theorem runs_length_le {runs : List (List Entry)} (h : ∀ es ∈ runs, es ≠ []) :
    runs.length ≤ runs.flatten.length := by
  induction runs with
  | nil => exact Nat.le_refl _
  | cons es runs ih =>
    have hes := List.length_pos_of_ne_nil (h es (by simp))
    have hrest := ih (fun x hx => h x (by simp [hx]))
    simp only [List.length_cons,List.flatten_cons,List.length_append]
    omega

theorem dataBlockCount_le (es : List Entry) : dataBlockCount es ≤ es.length := by
  have h := runs_length_le (fun c hc => (Greedy.cut_nil_run blockFull es c hc).ne_nil)
  rwa [← dataBlocks,dataBlocks_flatten] at h

theorem length_le_totalBytes {es : List Entry} (h : ∀ e ∈ es, WellFormed e.1) :
    8*es.length ≤ totalBytes es := by
  induction es with
  | nil => exact Nat.le_refl _
  | cons e es ih =>
    have hk : 8 ≤ e.1.length := h e (by simp)
    have hrest := ih (fun x hx => h x (by simp [hx]))
    simp only [totalBytes,List.map_cons,List.sum_cons,List.length_cons] at hrest ⊢
    omega

section
variable (X : Crates) (opts : SstBuilderOptions)

theorem layOut_length_le (file : Bytes) (runs : List (List Entry)) :
    (layOut X opts file runs).1.length ≤
      file.length+34*runs.flatten.length+totalBytes runs.flatten+13*runs.length := by
  induction runs generalizing file with
  | nil => simp [layOut]
  | cons es runs ih =>
    have hblock := BlockBuilder.ofEntries_length_le dataBlockRestartInterval es
    have hw := writeBlock_length X opts file (dataBlock es).finish
    have hrest := ih (writeBlock X opts file (dataBlock es).finish).1
    have hl : (layOut X opts file (es :: runs)).1 =
        (layOut X opts (writeBlock X opts file (dataBlock es).finish).1 runs).1 := rfl
    rw [← dataBlock] at hblock
    rw [hl,List.flatten_cons,List.length_append,totalBytes_append,List.length_cons]
    omega

theorem lastKeyOf_length_le (es : List Entry) :
    ((lastKeyOf es).getD []).length ≤ totalBytes es := by
  induction es using List.reverseRecOn with
  | nil => exact Nat.zero_le _
  | append_singleton es e _ =>
    rw [totalBytes_append]
    simp only [lastKeyOf,List.getLast?_concat,Option.map_some,Option.getD_some,totalBytes,
      List.map_cons,List.map_nil,List.sum_cons,List.sum_nil]
    omega

theorem indexRecord_length_le (e : Bytes × BlockHandle) :
    (indexRecord e).length ≤ 40+e.1.length := by
  have h := fun v : UInt32 => (putVarint64_length v.toUInt64).2
  have h₁ := h (UInt32.ofNat 0)
  have h₂ := h (UInt32.ofNat e.1.length)
  have h₃ := (putVarint64_length e.2.offset).2
  have h₄ := (putVarint64_length e.2.size).2
  simp only [indexRecord,indexKeyBytes,putVarint32,List.length_append]
  omega

theorem indexRecords_length_le (file : Bytes) (runs : List (List Entry)) :
    ((layOut X opts file runs).2.flatMap indexRecord).length ≤
      40*runs.length+totalBytes runs.flatten := by
  induction runs generalizing file with
  | nil => simp [layOut]
  | cons es runs ih =>
    have hrest := ih (writeBlock X opts file (dataBlock es).finish).1
    have hkey := lastKeyOf_length_le es
    have hrec := indexRecord_length_le ((lastKeyOf es).getD [],
      (writeBlock X opts file (dataBlock es).finish).2)
    have hl : (layOut X opts file (es :: runs)).2 = ((lastKeyOf es).getD [],
        (writeBlock X opts file (dataBlock es).finish).2) ::
        (layOut X opts (writeBlock X opts file (dataBlock es).finish).1 runs).2 := rfl
    rw [hl,List.flatMap_cons,List.length_append,List.flatten_cons,totalBytes_append,
      List.length_cons]
    simp only at hrec
    omega

/-- A file is not much longer than its entries: its blocks and their index add a bounded
number of bytes for each of them. -/
theorem Image.bytes_length_le {es : List Entry} (i : Image X opts es) (hw : i.Written X opts) :
    i.bytes.length ≤ 91*es.length+2*totalBytes es+1400+
      13*((strBytes opts.comparatorName).length+(strBytes opts.columnFamilyName).length) := by
  have hflat := dataBlocks_flatten es
  have hcount : (dataBlocks es).length ≤ es.length := dataBlockCount_le es
  have hdata := layOut_length_le X opts [] (dataBlocks es)
  have hindex := indexRecords_length_le X opts [] (dataBlocks es)
  have hfin := blockImage_length i.index.buffer i.index.restarts
  have hkeys := congrArg List.length (layOut_keys X opts [] (dataBlocks es))
  rw [List.length_map,List.length_map] at hkeys
  have hmeta : i.metaRaw.length < 150 := metaindex_length _ _
  have hlen := i.lengths
  have hprops := hw.props_length
  have hfooter := i.footer_length hw
  rw [i.lists.buffer,i.lists.restarts_length,← i.lists.buffer,hkeys,
    ← IndexBlockBuilder.finish] at hfin
  rw [← i.lists.buffer,hflat] at hindex
  rw [hflat] at hdata
  simp only [List.length_nil] at hdata
  omega

theorem buildSst_opens {entries es : List Entry} (h : writtenEntries opts entries = .ok es)
    (hl : 91*es.length+2*totalBytes es+1400+13*((strBytes opts.comparatorName).length+
      (strBytes opts.columnFamilyName).length) < 2^63) :
    ∃ reader : FileReader, buildSst X opts entries = .ok reader.contents := by
  obtain ⟨i,hb,hw⟩ := buildSst_image X opts h
  have hlen := i.bytes_length_le X opts hw
  exact ⟨⟨i.bytes,by omega⟩,hb⟩

end

def plainOptions : SstBuilderOptions := { checksumType := .noChecksum }

def ingestOptions : SstBuilderOptions := { plainOptions with externalSstGlobalSeqno := some 0 }

theorem smallOptions_opens (opts : SstBuilderOptions) {es : List Entry}
    (hw : ∀ e ∈ es, WellFormed e.1) (hn : es.length < 2^50) (hb : totalBytes es < 2^60)
    (ho : (strBytes opts.comparatorName).length+(strBytes opts.columnFamilyName).length < 2^50) :
    ∃ reader : FileReader, buildSst .idle opts es = .ok reader.contents := by
  refine buildSst_opens .idle opts (writtenEntries_ok opts hw) ?_
  rw [totalBytes_written opts hw,written_eq_map,List.length_map]
  omega

theorem plainOptions_opens {es : List Entry} (hn : es.length < 2^50)
    (hb : totalBytes es < 2^60) :
    ∃ reader : FileReader, buildSst .idle plainOptions es = .ok reader.contents := by
  have h₁ : (strBytes plainOptions.comparatorName).length = 26 := by decide
  have h₂ : (strBytes plainOptions.columnFamilyName).length = 7 := by decide
  refine buildSst_opens .idle plainOptions (writtenEntries_none plainOptions rfl es) ?_
  rw [h₁,h₂]
  omega

def longAndShort : List Entry :=
  [(leBytes 8 0x201,List.replicate 5000 1),(leBytes 8 0x101,[2])]

theorem longAndShort_blocks : dataBlockCount longAndShort = 2 := by decide +kernel

theorem longAndShort_totalBytes : totalBytes longAndShort = 5017 := by decide +kernel

theorem longAndShort_lengths : ∀ e ∈ longAndShort, e.1.length = 8 ∧ e.2.length ≤ 5000 := by
  decide +kernel

theorem longAndShort_wellFormed : ∀ e ∈ longAndShort, WellFormed e.1 :=
  fun e he => Nat.le_of_eq (longAndShort_lengths e he).1.symm

theorem longAndShort_fits : ∀ e ∈ longAndShort, Fits e := by
  intro e he
  obtain ⟨hk,hv⟩ := longAndShort_lengths e he
  exact ⟨by omega,by omega⟩

theorem longAndShort_opens :
    ∃ reader : FileReader, buildSst .idle plainOptions longAndShort = .ok reader.contents :=
  plainOptions_opens (by decide) (by rw [longAndShort_totalBytes]; decide)

theorem longAndShort_decodes {reader : FileReader}
    (h : buildSst .idle plainOptions longAndShort = .ok reader.contents) :
    decodeSst .idle reader = .ok longAndShort := by
  obtain ⟨bytes,hb,hf⟩ := buildSst_fileOf .idle plainOptions
    (writtenEntries_none plainOptions rfl longAndShort) longAndShort_fits
  exact (hf reader (Except.ok.inj (h.symm.trans hb))).low (by rw [longAndShort_blocks]; decide)

end SstCompactor
