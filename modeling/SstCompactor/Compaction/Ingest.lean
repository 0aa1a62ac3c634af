import SstCompactor.Compaction.Policies
import SstCompactor.Compaction.Survivors
import SstCompactor.Sst.Index

/-!
Ingest mode, in which every key is rewritten to sequence number 0 after the strategy has
decided. With one version of each user key nothing is lost but the number; with more of them
their order is left to the type bytes.
-/

set_option autoImplicit false

namespace SstCompactor
open FixedWidth

def ingested (e : Entry) : Bytes × Nat × Bytes := (userKey e.1,typeByte e.1,e.2)

section
variable {opts : SstBuilderOptions} {g : UInt64}

theorem ingested_writtenEntry (hext : opts.externalSstGlobalSeqno = some g) (e : Entry) :
    ingested (writtenEntry opts e) = ingested e := by
  have ht : typeByte (writtenEntry opts e).1 = typeByte e.1 := by
    rw [typeByte,packed_writtenEntry hext,typeByte,Nat.and_assoc,Nat.and_self]
  rw [ingested,ht,(writtenEntry_key opts e).1,writtenEntry_snd]
  rfl

end

/-- What the writer of a file to be ingested has to keep to, and that the entries are those of
a plain file. -/
structure Ingestible (out plain : List Entry) : Prop where
  unnumbered : ∀ e ∈ out, sequence e.1 = 0
  ascending : Ascending out
  live : ∀ e ∈ out, (valueType e.1).isTombstone = false
  same : out.map ingested = plain.map ingested

theorem written_ingestible {opts : SstBuilderOptions} {g : UInt64}
    (hext : opts.externalSstGlobalSeqno = some g) {es : List Entry} (ha : Ascending es)
    (hl : ∀ e ∈ es, (valueType e.1).isTombstone = false) : Ingestible (written opts es) es where
  unnumbered := by
    intro e he
    rw [written_eq_map] at he
    obtain ⟨x,-,rfl⟩ := List.mem_map.mp he
    exact sequence_writtenEntry hext x
  ascending := ascending_written opts ha
  live := written_live opts hl
  same := by
    rw [written_eq_map,List.map_map]
    exact List.map_congr_left (fun e _ => ingested_writtenEntry hext e)

def CompactionOptions.plain (opts : CompactionOptions) : CompactionOptions :=
  ⟨{ opts.sstBuilder with externalSstGlobalSeqno := none }⟩

/-- A file written in ingest mode can be ingested, holds what the plain file holds and is
indexed by its own keys, if and only if both files have fewer than 2^32 data blocks. -/
theorem ingest_iff (X : Crates) (opts : CompactionOptions) (g : UInt64)
    (hext : opts.sstBuilder.externalSstGlobalSeqno = some g) (sources : List ArenaSource)
    (ls : List (List Entry)) (h : SortedInputs sources ls) :
    ∃ bytes plain, compact X sources opts = .ok bytes ∧ compact X sources opts.plain = .ok plain ∧
      ∀ reader reader' : FileReader, reader.contents = bytes → reader'.contents = plain →
        ((∃ out out' r index, decodeSst X reader = .ok out ∧ decodeSst X reader' = .ok out' ∧
            Ingestible out out' ∧ SstReader.openSst X reader = .ok r ∧
            r.indexEntries = .ok index ∧
            List.Forall₂ (Indexes (r.blockEntries X)) (dataBlocks out) index) ↔
          dataBlockCount (written opts.sstBuilder (survivors none (mergeOrder ls))) < 2^32 ∧
            dataBlockCount (survivors none (mergeOrder ls)) < 2^32) := by
  have hasc := survivors_ascending none (mergeOrder_sorted h.sorted)
  have hok := writtenEntries_ok opts.sstBuilder h.survivors_wf
  obtain ⟨bytes,hb,hfile⟩ := h.compact_fileOf X opts
  obtain ⟨plain,hp,hfile'⟩ := h.compact_fileOf X opts.plain
  obtain ⟨bytes',hb',hindex⟩ := indexEntries_buildSst X opts.sstBuilder hok
    (written_fits opts.sstBuilder h.survivors_wf h.survivors_fit)
  rw [← h.compact_eq X opts,hb,Except.ok.injEq] at hb'
  subst hb'
  rw [written_none opts.plain.sstBuilder rfl] at hfile'
  refine ⟨bytes,plain,hb,hp,fun reader reader' hr hr' => ?_⟩
  have hback := hfile reader hr
  have hback' := hfile' reader' hr'
  constructor
  · rintro ⟨out,out',r,index,hout,hout',-⟩
    exact ⟨((hback.iff (fun _ => True)).mp ⟨out,hout,trivial⟩).1,
      ((hback'.iff (fun _ => True)).mp ⟨out',hout',trivial⟩).1⟩
  · rintro ⟨hlt,hlt'⟩
    obtain ⟨r,hopen,hlow,-⟩ := hindex reader hr
    obtain ⟨index,hlist,hidx⟩ := hlow hlt
    exact ⟨_,_,r,index,hback.low hlt,hback'.low hlt',
      written_ingestible hext hasc (survivors_live none _),hopen,hlist,hidx⟩

theorem ingest_sameKeys :
    ∃ bytes plain, compact .idle (sameKeys.map .ofEntries) ⟨ingestOptions⟩ = .ok bytes ∧
      compact .idle (sameKeys.map .ofEntries) (CompactionOptions.plain ⟨ingestOptions⟩) =
        .ok plain ∧
      ∀ reader reader' : FileReader, reader.contents = bytes → reader'.contents = plain →
        ((∃ out out' r index, decodeSst .idle reader = .ok out ∧
            decodeSst .idle reader' = .ok out' ∧ Ingestible out out' ∧
            SstReader.openSst .idle reader = .ok r ∧ r.indexEntries = .ok index ∧
            List.Forall₂ (Indexes (r.blockEntries .idle)) (dataBlocks out) index) ↔
          dataBlockCount (written ingestOptions (survivors none (mergeOrder sameKeys))) < 2^32 ∧
            dataBlockCount (survivors none (mergeOrder sameKeys)) < 2^32) :=
  ingest_iff .idle ⟨ingestOptions⟩ 0 rfl _ sameKeys sameKeys_inputs

theorem ingest_manyKeys :
    SortedInputs (manyKeys.map .ofEntries) manyKeys ∧
    ¬ ∃ bytes plain, compact .idle (manyKeys.map .ofEntries) ⟨ingestOptions⟩ = .ok bytes ∧
      compact .idle (manyKeys.map .ofEntries) (CompactionOptions.plain ⟨ingestOptions⟩) =
        .ok plain ∧
      ∀ reader reader' : FileReader, reader.contents = bytes → reader'.contents = plain →
        ∃ out out' r index, decodeSst .idle reader = .ok out ∧
          decodeSst .idle reader' = .ok out' ∧ Ingestible out out' ∧
          SstReader.openSst .idle reader = .ok r ∧ r.indexEntries = .ok index ∧
          List.Forall₂ (Indexes (r.blockEntries .idle)) (dataBlocks out) index := by
  refine ⟨manyKeys_inputs.sortedInputs,?_⟩
  rintro ⟨bytes,plain,hb,hp,hread⟩
  obtain ⟨reader,e,hc,he⟩ := manyKeys_compact_unreadable ingestOptions (by decide)
  obtain ⟨reader',-,hc',-⟩ := manyKeys_compact_unreadable plainOptions (by decide)
  have hr : reader.contents = bytes := Except.ok.inj (hc.symm.trans hb)
  have hr' : reader'.contents = plain := Except.ok.inj (hc'.symm.trans hp)
  obtain ⟨out,-,-,-,hout,-⟩ := hread reader reader' hr hr'
  rw [he] at hout
  contradiction

inductive Provided where
  | bottommost
  | snapshotAware (snapshotSeqno : Nat)
  | passthrough
  deriving DecidableEq, Repr

def Provided.compact (p : Provided) (X : Crates) (sources : List ArenaSource)
    (opts : CompactionOptions) : Exec Bytes :=
  match p with
  | .bottommost => do
      let (bytes,_) ← compactWithStrategy X sources opts BottommostStrategy.mk
      pure bytes
  | .snapshotAware s => do
      let (bytes,_) ← compactWithStrategy X sources opts (SnapshotAwareStrategy.new s)
      pure bytes
  | .passthrough => do
      let (bytes,_) ← compactWithStrategy X sources opts PassthroughStrategy.mk
      pure bytes

def Provided.kept : Provided → List Entry → List Entry
  | .bottommost => bottommostKept
  | .snapshotAware s => snapshotKept s
  | .passthrough => id

theorem Provided.kept_sublist (p : Provided) (es : List Entry) : (p.kept es).Sublist es := by
  cases p with
  | bottommost => exact List.filter_sublist
  | snapshotAware s => exact snapshotKept_sublist s es
  | passthrough => exact List.Sublist.refl es

theorem Provided.compact_fileOf (p : Provided) {sources : List ArenaSource}
    {ls : List (List Entry)} (h : Inputs sources ls) (X : Crates) (opts : CompactionOptions) :
    ∃ bytes, p.compact X sources opts = .ok bytes ∧
      FileOf X bytes (written opts.sstBuilder (p.kept (mergedEntries ls))) := by
  cases p with
  | bottommost =>
    obtain ⟨bytes,hc,hread⟩ := h.compactWithStrategy_fileOf X opts BottommostStrategy.mk
    rw [keptBy_bottommost] at hread
    exact ⟨bytes,by simp only [Provided.compact,hc,ok_bind,pure_eq_ok],hread⟩
  | snapshotAware s =>
    obtain ⟨bytes,hc,hread⟩ := h.compactWithStrategy_fileOf X opts (SnapshotAwareStrategy.new s)
    rw [keptBy_snapshot (.new s) (mergedEntries_ordered h.distinct)] at hread
    exact ⟨bytes,by simp only [Provided.compact,hc,ok_bind,pure_eq_ok],hread⟩
  | passthrough =>
    obtain ⟨bytes,hc,hread⟩ := h.compactWithStrategy_fileOf X opts PassthroughStrategy.mk
    rw [keptBy_passthrough] at hread
    exact ⟨bytes,by simp only [Provided.compact,hc,ok_bind,pure_eq_ok],hread⟩

def TypesDescend (es : List Entry) : Prop :=
  ∀ a ∈ es, ∀ b ∈ es, userKey a.1 = userKey b.1 → packed b.1 < packed a.1 →
    typeByte b.1 < typeByte a.1

theorem pairwise_either {α : Type} {R : α → α → Prop} {l : List α} (h : l.Pairwise R) {a b : α}
    (ha : a ∈ l) (hb : b ∈ l) (hne : a ≠ b) : R a b ∨ R b a := by
  obtain ⟨i,hi,rfl⟩ := List.getElem_of_mem ha
  obtain ⟨j,hj,rfl⟩ := List.getElem_of_mem hb
  rcases Nat.lt_trichotomy i j with hij | rfl | hij
  · exact .inl (List.pairwise_iff_getElem.mp h i j hi hj hij)
  · exact absurd rfl hne
  · exact .inr (List.pairwise_iff_getElem.mp h j i hj hi hij)

section
variable {opts : SstBuilderOptions} {g : UInt64}

theorem compareKeys_writtenEntry (hext : opts.externalSstGlobalSeqno = some g) (a b : Entry) :
    compareKeys (writtenEntry opts a).1 (writtenEntry opts b).1 =
      (compare (userKey a.1) (userKey b.1)).then (compare (typeByte b.1) (typeByte a.1)) := by
  rw [compareKeys,(writtenEntry_key opts a).1,(writtenEntry_key opts b).1,
    packed_writtenEntry hext,packed_writtenEntry hext]

/-- Ingest mode keeps the order of the entries exactly when the type bytes do. -/
theorem written_ordered_iff (hext : opts.externalSstGlobalSeqno = some g) {es : List Entry}
    (h : Ordered es) : Ordered (written opts es) ↔ TypesDescend es := by
  have hself : ∀ u : Bytes, compare u u = .eq := fun u => Std.ReflCmp.compare_self
  constructor
  · intro hw a ha b hb hu hp
    have hs := hw.sorted
    rw [written_eq_map,List.pairwise_map] at hs
    have hne : a ≠ b := by
      intro hh
      rw [hh] at hp
      omega
    rcases pairwise_either (h.sorted.and hs) ha hb hne with ⟨-,hlt⟩ | ⟨hlt,-⟩
    · rw [compareKeys_writtenEntry hext,hu,hself] at hlt
      exact Nat.compare_eq_lt.mp hlt
    · have := packed_lt_of_lt hu.symm hlt
      omega
  · intro ht
    refine ⟨written_wf opts h.wf,?_⟩
    rw [written_eq_map,List.pairwise_map]
    refine h.sorted.imp_of_mem (fun {a b} ha hb hab => ?_)
    rw [compareKeys_writtenEntry hext]
    by_cases hu : userKey a.1 = userKey b.1
    · have hp := packed_lt_of_lt hu hab
      rw [hu,hself]
      exact Nat.compare_eq_lt.mpr (ht a ha b hb hu hp)
    · have hlt := compare_lt_of_ne (compare_user_of_le (by rw [hab]; simp)) hu
      rw [hlt]
      rfl

theorem findVersion_written (hext : opts.externalSstGlobalSeqno = some g) {es : List Entry}
    (h : Ordered es) (hw : Ordered (written opts es)) (u : Bytes) :
    findVersion always (written opts es) u =
      (findVersion always es u).map (writtenEntry opts) := by
  have ht := (written_ordered_iff hext h).mp hw
  cases hf : findVersion always es u with
  | none =>
    refine findVersion_none.mpr (fun e he hu => ?_)
    rw [written_eq_map] at he
    obtain ⟨x,hx,rfl⟩ := List.mem_map.mp he
    exact findVersion_none.mp hf x hx ((writtenEntry_key opts x).1.symm.trans hu)
  | some e =>
    obtain ⟨he,hu,hn⟩ := (findVersion_some h.distinct).mp hf
    refine (findVersion_some hw.distinct).mpr ⟨?_,(writtenEntry_key opts e).1.trans hu,?_⟩
    · rw [written_eq_map]
      exact List.mem_map_of_mem he
    · refine newestWhere_iff.mpr ⟨rfl,fun x hx hxu _ => ?_⟩
      rw [written_eq_map] at hx
      obtain ⟨y,hy,rfl⟩ := List.mem_map.mp hx
      rw [(writtenEntry_key opts y).1,(writtenEntry_key opts e).1] at hxu
      rw [packed_writtenEntry hext,packed_writtenEntry hext]
      have hle := (newestWhere_iff.mp hn).2 y hy hxu rfl
      rcases Nat.lt_or_eq_of_le hle with hlt | heq
      · exact Nat.le_of_lt (ht e he y hy hxu.symm hlt)
      · rw [h.distinct.eq hy he hxu heq]

end

/-- The file is strictly sorted and shows the newest kept version of each user key, if and only
if it has fewer than 2^32 data blocks and, in ingest mode, newer kept versions of a user key
have larger type bytes. -/
theorem output_sorted_iff (X : Crates) (opts : CompactionOptions) (sources : List ArenaSource)
    (ls : List (List Entry)) (h : Inputs sources ls) (p : Provided) :
    ∃ bytes, p.compact X sources opts = .ok bytes ∧
      ∀ reader : FileReader, reader.contents = bytes →
        ((∃ out, decodeSst X reader = .ok out ∧ Ordered out ∧
          ∀ u, findVersion always out u = (findVersion always (p.kept (mergedEntries ls)) u).map
            (writtenEntry opts.sstBuilder)) ↔
          dataBlockCount (written opts.sstBuilder (p.kept (mergedEntries ls))) < 2^32 ∧
            (opts.sstBuilder.externalSstGlobalSeqno = none ∨
              TypesDescend (p.kept (mergedEntries ls)))) := by
  have hord := (mergedEntries_ordered h.distinct).sublist (p.kept_sublist (mergedEntries ls))
  obtain ⟨bytes,hc,hread⟩ := p.compact_fileOf h X opts
  refine ⟨bytes,hc,fun reader hr => ?_⟩
  rw [(hread reader hr).iff (fun out => Ordered out ∧ ∀ u, findVersion always out u =
    (findVersion always (p.kept (mergedEntries ls)) u).map (writtenEntry opts.sstBuilder))]
  refine and_congr_right (fun _ => ?_)
  cases hext : opts.sstBuilder.externalSstGlobalSeqno with
  | none =>
    have hid : writtenEntry opts.sstBuilder = id := by funext e; simp [writtenEntry,hext]
    rw [written_none _ hext,hid]
    simp [hord]
  | some g =>
    simp only [reduceCtorEq,false_or]
    rw [← written_ordered_iff hext hord]
    exact ⟨fun hh => hh.1,fun hw => ⟨hw,findVersion_written hext hord hw⟩⟩

theorem output_sorted_two :
    ∃ bytes, Provided.passthrough.compact .idle (twoVersions.map .ofEntries) ⟨ingestOptions⟩ =
        .ok bytes ∧
      ∀ reader : FileReader, reader.contents = bytes →
        ((∃ out, decodeSst .idle reader = .ok out ∧ Ordered out ∧
          ∀ u, findVersion always out u =
            (findVersion always (Provided.passthrough.kept (mergedEntries twoVersions)) u).map
              (writtenEntry ingestOptions)) ↔
          dataBlockCount
              (written ingestOptions (Provided.passthrough.kept (mergedEntries twoVersions))) <
            2^32 ∧
            (ingestOptions.externalSstGlobalSeqno = none ∨
              TypesDescend (Provided.passthrough.kept (mergedEntries twoVersions)))) :=
  output_sorted_iff .idle ⟨ingestOptions⟩ _ twoVersions twoVersions_inputs .passthrough

def deletedValue : List (List Entry) :=
  [[([7] ++ leBytes 8 0x200,[]),([7] ++ leBytes 8 0x101,[1])]]

theorem deletedValue_inputs : Inputs (deletedValue.map .ofEntries) deletedValue :=
  Inputs.ofLists (by decide) (by decide) (by decide) (by decide)

theorem output_sorted_deletedValue :
    Inputs (deletedValue.map .ofEntries) deletedValue ∧
    ¬ ∃ bytes, Provided.passthrough.compact .idle (deletedValue.map .ofEntries)
        ⟨ingestOptions⟩ = .ok bytes ∧
      ∀ reader : FileReader, reader.contents = bytes →
        ∃ out, decodeSst .idle reader = .ok out ∧ Ordered out ∧
          ∀ u, findVersion always out u =
            (findVersion always (Provided.passthrough.kept (mergedEntries deletedValue)) u).map
              (writtenEntry ingestOptions) := by
  refine ⟨deletedValue_inputs,?_⟩
  rintro ⟨bytes,hc,hread⟩
  obtain ⟨reader,s',hc',hback⟩ := deletedValue_inputs.opens_with ingestOptions (by decide)
    PassthroughStrategy.mk (by decide) (by decide)
  simp only [Provided.compact,hc',ok_bind,pure_eq_ok,Except.ok.injEq] at hc
  rw [keptBy_passthrough] at hback
  have hord := ((hback.iff _).mp (hread reader hc)).2.1
  have hdesc := (written_ordered_iff rfl (mergedEntries_ordered deletedValue_inputs.distinct)).mp
    hord
  have hmem : ∀ e ∈ deletedValue.flatten, e ∈ mergedEntries deletedValue :=
    fun e he => (mergedEntries_perm deletedValue).symm.subset he
  have hlt := hdesc _ (hmem ([7] ++ leBytes 8 0x200,[]) (by decide)) _
    (hmem ([7] ++ leBytes 8 0x101,[1]) (by decide)) (by decide) (by decide)
  exact absurd hlt (by decide)

end SstCompactor
