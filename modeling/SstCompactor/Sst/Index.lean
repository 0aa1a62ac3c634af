import SstCompactor.Sst.Size
import SstCompactor.Compaction.Versions

set_option autoImplicit false

namespace SstCompactor
open FixedWidth

def SstReader.indexEntries (r : SstReader) : Exec (List (Bytes × BlockHandle)) := do
  let (listed,outcome) := forEachIndexEntry r.index
  outcome
  pure listed

def entriesAt (fetch : BlockHandle → Exec Bytes) (handle : BlockHandle) : Exec (List Entry) := do
  let raw ← fetch handle
  let parsed ← parseBlock raw
  let (es,outcome) := forEachEntry parsed
  outcome
  pure es

def SstReader.blockEntries (X : Crates) (r : SstReader) : BlockHandle → Exec (List Entry) :=
  entriesAt (readBlockContents X r.reader r.footer.checksumType r.footer.baseContextChecksum)

def firstFrom {α : Type} (t : Bytes) : List (Bytes × α) → Exec (Option (Bytes × α))
  | [] => pure none
  | x :: xs => do
      let o ← internalKeyCompare x.1 t
      if o = .lt then firstFrom t xs else pure (some x)

/-- Lookups through the index find what a look through all entries finds. -/
structure LooksUp (index : List (Bytes × BlockHandle)) (block : BlockHandle → Exec (List Entry))
    (es : List Entry) : Prop where
  increasing : index.Pairwise (fun a b => internalKeyCompare a.1 b.1 = .ok .lt)
  found : ∀ t, WellFormed t → ∀ i, firstFrom t index = .ok (some i) →
    ∃ b e, block i.2 = .ok b ∧ firstFrom t es = .ok (some e) ∧ e ∈ b
  missed : ∀ t, WellFormed t → firstFrom t index = .ok none → firstFrom t es = .ok none
  answers : ∀ t, WellFormed t → ∃ i, firstFrom t index = .ok i

theorem firstFrom_eq {α : Type} {t : Bytes} (ht : WellFormed t) {xs : List (Bytes × α)}
    (hw : ∀ x ∈ xs, WellFormed x.1) :
    firstFrom t xs = .ok (xs.find? (fun x => compareKeys x.1 t != .lt)) := by
  induction xs with
  | nil => rfl
  | cons x xs ih =>
    have hrest := ih (fun y hy => hw y (by simp [hy]))
    simp only [firstFrom,internalKeyCompare_ok (hw x (by simp)) ht,ok_bind,hrest,pure_eq_ok]
    by_cases hlt : compareKeys x.1 t = .lt
    · simp [hlt]
    · simp [hlt]

def Indexes (block : BlockHandle → Exec (List Entry)) (run : List Entry)
    (i : Bytes × BlockHandle) : Prop :=
  block i.2 = .ok run ∧ lastKeyOf run = some i.1

theorem compareKeys_lt_trans {a b c : Bytes} (h₁ : compareKeys a b = .lt)
    (h₂ : compareKeys b c = .lt) : compareKeys a c = .lt :=
  Std.TransCmp.lt_trans h₁ h₂

theorem lastKeyOf_le {run : List Entry} (h : Ordered run) {k : Bytes}
    (hk : lastKeyOf run = some k) :
    ∃ x ∈ run, x.1 = k ∧ ∀ e ∈ run, e = x ∨ compareKeys e.1 k = .lt := by
  obtain ⟨x,hx,hxk⟩ := Option.map_eq_some_iff.mp hk
  obtain ⟨init,rfl⟩ := List.getLast?_eq_some_iff.mp hx
  refine ⟨x,by simp,hxk,fun e he => ?_⟩
  rcases List.mem_append.mp he with he | he
  · exact .inr (hxk ▸ (List.pairwise_append.mp h.sorted).2.2 e he x (by simp))
  · exact .inl (List.mem_singleton.mp he)

section
variable {block : BlockHandle → Exec (List Entry)} {runs : List (List Entry)}
variable {index : List (Bytes × BlockHandle)}

theorem indexes_mem (h : List.Forall₂ (Indexes block) runs index) {i : Bytes × BlockHandle}
    (hi : i ∈ index) : ∃ e ∈ runs.flatten, e.1 = i.1 := by
  induction h with
  | nil => simp at hi
  | @cons run j runs index hj _ ih =>
    rcases List.mem_cons.mp hi with rfl | hi
    · obtain ⟨x,hx,hxk⟩ := Option.map_eq_some_iff.mp hj.2
      exact ⟨x,by simp [List.mem_of_getLast? hx],hxk⟩
    · obtain ⟨e,he,hei⟩ := ih hi
      exact ⟨e,by simp only [List.flatten_cons,List.mem_append]; exact .inr he,hei⟩

theorem ordered_append {es fs : List Entry} (h : Ordered (es ++ fs)) : Ordered es ∧ Ordered fs :=
  ⟨h.sublist (List.sublist_append_left _ _),h.sublist (List.sublist_append_right _ _)⟩

theorem indexes_increasing (h : List.Forall₂ (Indexes block) runs index)
    (ho : Ordered runs.flatten) :
    index.Pairwise (fun a b => internalKeyCompare a.1 b.1 = .ok .lt) := by
  induction h with
  | nil => exact .nil
  | @cons run i runs index hi hrest ih =>
    rw [List.flatten_cons] at ho
    obtain ⟨x,hx,hxi,-⟩ := lastKeyOf_le (ordered_append ho).1 hi.2
    refine List.pairwise_cons.mpr ⟨fun j hj => ?_,ih (ordered_append ho).2⟩
    obtain ⟨y,hy,hyj⟩ := indexes_mem hrest hj
    rw [← hxi,← hyj,internalKeyCompare_ok (ho.wf x (by simp [hx]))
      (ho.wf y (List.mem_append_right _ hy)),(List.pairwise_append.mp ho.sorted).2.2 x hx y hy]

/-- One descent: into the first run whose last key is not below `t`. Every run before it lies
below `t` as a whole. -/
theorem indexes_find (h : List.Forall₂ (Indexes block) runs index) (ho : Ordered runs.flatten)
    (t : Bytes) :
    (∀ i, index.find? (fun x => compareKeys x.1 t != .lt) = some i → ∃ b e,
      block i.2 = .ok b ∧
      runs.flatten.find? (fun x => compareKeys x.1 t != .lt) = some e ∧ e ∈ b) ∧
    (index.find? (fun x => compareKeys x.1 t != .lt) = none →
      runs.flatten.find? (fun x => compareKeys x.1 t != .lt) = none) := by
  induction h with
  | nil => simp
  | @cons run i runs index hi _ ih =>
    rw [List.flatten_cons] at ho ⊢
    obtain ⟨x,hx,hxi,hmax⟩ := lastKeyOf_le (ordered_append ho).1 hi.2
    by_cases hlt : compareKeys i.1 t = .lt
    · have hbelow : run.find? (fun x => compareKeys x.1 t != .lt) = none := by
        refine List.find?_eq_none.mpr (fun e he => ?_)
        have het : compareKeys e.1 t = .lt := by
          rcases hmax e he with rfl | hei
          · rw [hxi]
            exact hlt
          · exact compareKeys_lt_trans hei hlt
        simp [het]
      rw [List.find?_cons_of_neg (by simp [hlt]),List.find?_append,hbelow,Option.none_or]
      exact ih (ordered_append ho).2
    · have hat : compareKeys x.1 t != .lt := by
        rw [hxi]
        simpa using hlt
      have hsome : (run.find? (fun x => compareKeys x.1 t != .lt)).isSome :=
        List.find?_isSome.mpr ⟨x,hx,hat⟩
      obtain ⟨e,he⟩ := Option.isSome_iff_exists.mp hsome
      rw [List.find?_cons_of_pos (by simpa using hlt),List.find?_append,he]
      refine ⟨fun j hj => ⟨run,e,?_,rfl,List.mem_of_find?_eq_some he⟩,by simp⟩
      rw [← Option.some.inj hj]
      exact hi.1

theorem looksUp_of_indexes (h : List.Forall₂ (Indexes block) runs index)
    (ho : Ordered runs.flatten) : LooksUp index block runs.flatten := by
  have hw : ∀ i ∈ index, WellFormed i.1 := by
    intro i hi
    obtain ⟨e,he,hei⟩ := indexes_mem h hi
    rw [← hei]
    exact ho.wf e he
  refine ⟨indexes_increasing h ho,fun t ht i hi => ?_,fun t ht hnone => ?_,
    fun t ht => ⟨_,firstFrom_eq ht hw⟩⟩
  · rw [firstFrom_eq ht hw,Except.ok.injEq] at hi
    obtain ⟨b,e,hb,he,heb⟩ := (indexes_find h ho t).1 i hi
    exact ⟨b,e,hb,by rw [firstFrom_eq ht ho.wf,he],heb⟩
  · rw [firstFrom_eq ht hw,Except.ok.injEq] at hnone
    rw [firstFrom_eq ht ho.wf,(indexes_find h ho t).2 hnone]

end

theorem not_looksUp_stray {block : BlockHandle → Exec (List Entry)} {es : List Entry}
    {listed more : List (Bytes × BlockHandle)} (hne : listed ≠ []) :
    ¬ LooksUp (listed ++ strayEntry :: more) block es := by
  intro h
  obtain ⟨i,listed,rfl⟩ := List.exists_cons_of_ne_nil hne
  have hlt := (List.pairwise_cons.mp h.increasing).1 strayEntry (by simp)
  simp only [internalKeyCompare,strayEntry] at hlt
  obtain ⟨a,-,hlt⟩ := bind_eq_ok hlt
  obtain ⟨b,hb,-⟩ := bind_eq_ok hlt
  exact absurd hb (by simp [splitSuffix,checkedSub,suffixLen])

section
variable (X : Crates) (opts : SstBuilderOptions)

theorem Serves.indexes_layOut {X : Crates} {opts : SstBuilderOptions}
    {fetch : BlockHandle → Exec Bytes} {bytes : Bytes} (hs : Serves X opts fetch bytes)
    (hl : bytes.length < 2^63) (file post : Bytes) (runs : List (List Entry))
    (hb : bytes = (layOut X opts file runs).1 ++ post)
    (hr : ∀ es ∈ runs, Greedy.Run blockFull es ∧ ∀ e ∈ es, Fits e) :
    List.Forall₂ (Indexes (entriesAt fetch)) runs (layOut X opts file runs).2 := by
  induction runs generalizing file with
  | nil => exact .nil
  | cons es runs ih =>
    obtain ⟨parsed,hfetch,hparse,hread⟩ := hs.first_run hl hb (hr es (by simp))
    have hrest := ih (writeBlock X opts file (dataBlock es).finish).1 hb
      (fun x hx => hr x (by simp [hx]))
    refine .cons ⟨?_,?_⟩ hrest
    · show entriesAt fetch (writeBlock X opts file (dataBlock es).finish).2 = .ok es
      simp only [entriesAt,hfetch,ok_bind,hparse,hread,pure_eq_ok]
    · obtain ⟨i,x,rfl,-⟩ := (hr es (by simp)).1
      simp [lastKeyOf]

theorem indexEntries_buildSst {entries es : List Entry}
    (hw : writtenEntries opts entries = .ok es) (hf : ∀ e ∈ es, Fits e) :
    ∃ bytes, buildSst X opts entries = .ok bytes ∧
      ∀ reader : FileReader, reader.contents = bytes → ∃ r, SstReader.openSst X reader = .ok r ∧
        (dataBlockCount es < 2^32 → ∃ index, r.indexEntries = .ok index ∧
          List.Forall₂ (Indexes (r.blockEntries X)) (dataBlocks es) index) ∧
        (2^32 ≤ dataBlockCount es → (∃ e, r.indexEntries = .error e) ∨
          ∃ listed more, listed ≠ [] ∧ r.indexEntries = .ok (listed ++ strayEntry :: more)) := by
  obtain ⟨i,hb,hi⟩ := buildSst_image X opts hw
  refine ⟨i.bytes,hb,fun reader hr => ?_⟩
  obtain ⟨hl,hs⟩ := i.served hr
  obtain ⟨post,hbytes⟩ := i.bytes_layOut
  obtain ⟨index,hidx,hlow,hhigh⟩ := i.index_lists hl hf
  obtain ⟨metaindex,hopen,-⟩ := openSst_ok X opts hi hr hidx
  refine ⟨_,hopen,fun hlt => ?_,fun hge => ?_⟩
  · refine ⟨_,by simp only [SstReader.indexEntries,hlow hlt,ok_bind,pure_eq_ok]; rfl,?_⟩
    exact hs.indexes_layOut hl [] post (dataBlocks es) hbytes (dataBlocks_runs es hf)
  · obtain ⟨more,outcome,hwalk⟩ := hhigh hge
    cases outcome with
    | error e => exact .inl ⟨e,by simp only [SstReader.indexEntries,hwalk,error_bind]⟩
    | ok u =>
      refine .inr ⟨(layOut X opts [] (dataBlocks es)).2,more,?_,by
        simp only [SstReader.indexEntries,hwalk,ok_bind,pure_eq_ok]⟩
      intro hnil
      have hk := congrArg List.length (layOut_keys X opts [] (dataBlocks es))
      simp only [hnil,List.map_nil,List.length_nil,List.length_map] at hk
      rw [dataBlockCount,← hk] at hge
      omega

/-- Every lookup through the index lands on the right block, if and only if the file has
fewer than 2^32 data blocks. -/
theorem indexLookup_iff {es : List Entry} (hext : opts.externalSstGlobalSeqno = none)
    (ho : Ordered es) (hf : ∀ e ∈ es, Fits e) :
    ∃ bytes, buildSst X opts es = .ok bytes ∧
      ∀ reader : FileReader, reader.contents = bytes →
        ((∃ r index, SstReader.openSst X reader = .ok r ∧ r.indexEntries = .ok index ∧
          LooksUp index (r.blockEntries X) es) ↔ dataBlockCount es < 2^32) := by
  obtain ⟨bytes,hb,hread⟩ := indexEntries_buildSst X opts (writtenEntries_none opts hext es) hf
  refine ⟨bytes,hb,fun reader hr => ?_⟩
  obtain ⟨r,hopen,hlow,hhigh⟩ := hread reader hr
  constructor
  · intro hh
    obtain ⟨r',index,hr',hindex,hlook⟩ := hh
    rw [hopen,Except.ok.injEq] at hr'
    subst hr'
    by_contra hge
    rcases hhigh (Nat.not_lt.mp hge) with ⟨e,he⟩ | ⟨listed,more,hne,hlisted⟩
    · rw [he] at hindex
      contradiction
    · rw [hlisted,Except.ok.injEq] at hindex
      subst hindex
      exact not_looksUp_stray hne hlook
  · intro hlt
    obtain ⟨index,hindex,hidx⟩ := hlow hlt
    have hlook := looksUp_of_indexes hidx (by rw [dataBlocks_flatten]; exact ho)
    rw [dataBlocks_flatten] at hlook
    exact ⟨r,index,hopen,hindex,hlook⟩

end

theorem longAndShort_ordered : Ordered longAndShort :=
  ⟨longAndShort_wellFormed,by decide +kernel⟩

theorem indexLookup_two :
    ∃ bytes, buildSst .idle plainOptions longAndShort = .ok bytes ∧
      ∀ reader : FileReader, reader.contents = bytes →
        ∃ r index, SstReader.openSst .idle reader = .ok r ∧ r.indexEntries = .ok index ∧
          LooksUp index (r.blockEntries .idle) longAndShort := by
  obtain ⟨bytes,hb,hread⟩ := indexLookup_iff .idle plainOptions rfl longAndShort_ordered
    longAndShort_fits
  exact ⟨bytes,hb,fun reader hr => (hread reader hr).mpr (by rw [longAndShort_blocks]; decide)⟩

def manyVersion (i : Nat) : Entry := (leBytes 8 (2^50-i),[])

@[irreducible] def manyVersions : List Entry := (List.range (1366*2^32)).map manyVersion

theorem manyVersion_packed (i : Nat) : packed (manyVersion i).1 = 2^50-i := by
  have hp := packed_append [] (leBytes 8 (2^50-i)) (leBytes_length _ _)
  rw [List.nil_append] at hp
  exact hp.trans (ofLe_leBytes_of_lt (by omega))

theorem manyVersion_userKey (i : Nat) : userKey (manyVersion i).1 = [] :=
  userKey_append [] (leBytes 8 (2^50-i)) (leBytes_length _ _)

theorem manyVersions_length : manyVersions.length = 1366*2^32 := by
  unfold manyVersions
  rw [List.length_map,List.length_range]

theorem manyVersions_key : ∀ e ∈ manyVersions, e.1.length = 8 ∧ e.2 = [] := by
  unfold manyVersions
  intro e he
  obtain ⟨i,-,rfl⟩ := List.mem_map.mp he
  exact ⟨leBytes_length _ _,rfl⟩

theorem manyVersions_ordered : Ordered manyVersions := by
  refine ⟨fun e he => Nat.le_of_eq (manyVersions_key e he).1.symm,?_⟩
  unfold manyVersions
  have hlt := List.pairwise_lt_range (n:=1366*2^32)
  refine List.pairwise_map.mpr (List.Pairwise.imp_of_mem (fun {i j} hi hj hij => ?_) hlt)
  have hi := List.mem_range.mp hi
  have hj := List.mem_range.mp hj
  rw [compareKeys_same_user ((manyVersion_userKey i).trans (manyVersion_userKey j).symm),
    manyVersion_packed,manyVersion_packed]
  exact Nat.compare_eq_lt.mpr (by omega)

theorem manyVersions_fit : ∀ e ∈ manyVersions, Fits e := by
  intro e he
  obtain ⟨hk,hv⟩ := manyVersions_key e he
  rw [Fits,hk,hv]
  decide

theorem manyVersions_totalBytes : totalBytes manyVersions ≤ manyVersions.length*8 := by
  refine totalBytes_le (fun e he => ?_)
  obtain ⟨hk,hv⟩ := manyVersions_key e he
  rw [hk,hv]
  decide

theorem manyVersions_blocks : 2^32 ≤ dataBlockCount manyVersions := by
  have hlen := manyVersions_length
  have hcount := length_le_dataBlockCount manyVersions
  omega

theorem manyVersions_opens :
    ∃ reader : FileReader, buildSst .idle plainOptions manyVersions = .ok reader.contents := by
  have hlen := manyVersions_length
  have hbytes := manyVersions_totalBytes
  exact plainOptions_opens (show manyVersions.length < 2^50 by omega) (by omega)

theorem indexLookup_manyVersions :
    plainOptions.externalSstGlobalSeqno = none ∧ Ordered manyVersions ∧
    (∀ e ∈ manyVersions, Fits e) ∧
    ¬ ∃ bytes, buildSst .idle plainOptions manyVersions = .ok bytes ∧
      ∀ reader : FileReader, reader.contents = bytes →
        ∃ r index, SstReader.openSst .idle reader = .ok r ∧ r.indexEntries = .ok index ∧
          LooksUp index (r.blockEntries .idle) manyVersions := by
  refine ⟨rfl,manyVersions_ordered,manyVersions_fit,?_⟩
  intro hh
  obtain ⟨bytes,hb,hread⟩ := hh
  obtain ⟨reader,hreader⟩ := manyVersions_opens
  obtain ⟨bytes',hb',hindex⟩ := indexEntries_buildSst .idle plainOptions rfl manyVersions_fit
  rw [hb,Except.ok.injEq] at hreader hb'
  obtain ⟨r,hopen,-,hhigh⟩ := hindex reader (by rw [← hb',← hreader])
  obtain ⟨r',index,hr',hidx,hlook⟩ := hread reader hreader.symm
  rw [hopen,Except.ok.injEq] at hr'
  subst hr'
  rcases hhigh manyVersions_blocks with ⟨e,he⟩ | ⟨listed,more,hne,hlisted⟩
  · rw [he] at hidx
    cases hidx
  · rw [hlisted,Except.ok.injEq] at hidx
    subst hidx
    exact not_looksUp_stray hne hlook

end SstCompactor
