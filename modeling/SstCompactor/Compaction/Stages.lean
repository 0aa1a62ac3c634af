import SstCompactor.Compaction.Policies
import SstCompactor.Compaction.Survivors

set_option autoImplicit false

namespace SstCompactor
open FixedWidth

theorem buildSst_loads (X : Crates) (opts : SstBuilderOptions) {es : List Entry}
    (hw : ∀ e ∈ es, WellFormed e.1) (hcap : totalBytes es < 2^32) :
    ∃ bytes, buildSst X opts es = .ok bytes ∧
      ∀ reader : FileReader, reader.contents = bytes →
        ∃ source, loadArenaSource X reader = .ok source ∧ Yields source (written opts es) := by
  have hcap' : totalBytes (written opts es) < 2^32 := by rwa [totalBytes_written opts hw]
  obtain ⟨bytes,hb,hread⟩ := loadArenaSource_reads X opts (writtenEntries_ok opts hw)
    (fits_of_totalBytes hcap')
  refine ⟨bytes,hb,fun reader hr => ⟨_,(hread reader hr).low ?_,ofEntries_yields hcap'⟩⟩
  have hl := length_le_totalBytes (written_wf opts hw)
  have hc := dataBlockCount_le (written opts es)
  omega

theorem buildSst_written (X : Crates) (opts : SstBuilderOptions) {es : List Entry}
    (hw : ∀ e ∈ es, WellFormed e.1) :
    buildSst X opts (written opts es) = buildSst X opts es := by
  have htwice : written opts (written opts es) = written opts es := by
    simp only [written_eq_map,List.map_map]
    exact List.map_congr_left (fun e _ => writtenEntry_twice opts e)
  rw [buildSst,buildSst,writtenEntries_ok opts hw,writtenEntries_ok opts (written_wf opts hw),
    htwice]

/-- Compacting the output of a compaction again gives the same file. -/
theorem compact_idempotent (X : Crates) (opts : CompactionOptions) (sources : List ArenaSource)
    (ls : List (List Entry)) (h : SortedInputs sources ls)
    (hcap : totalBytes (survivors none (mergeOrder ls)) < 2^32) :
    ∃ bytes, compact X sources opts = .ok bytes ∧
      ∀ reader : FileReader, reader.contents = bytes →
        ∃ source, loadArenaSource X reader = .ok source ∧
          compact X [source] opts = .ok bytes := by
  have hw := h.survivors_wf
  have hasc := ascending_written opts.sstBuilder
    (survivors_ascending none (mergeOrder_sorted h.sorted))
  have hlive := written_live opts.sstBuilder (survivors_live none (mergeOrder ls))
  obtain ⟨bytes,hb,hload⟩ := buildSst_loads X opts.sstBuilder hw hcap
  refine ⟨bytes,(h.compact_eq X opts).trans hb,fun reader hr => ?_⟩
  obtain ⟨source,hl,hy⟩ := hload reader hr
  have hin : SortedInputs [source]
      [written opts.sstBuilder (survivors none (mergeOrder ls))] :=
    ⟨.cons hy .nil,by simpa using ascending_sorted hasc,
      by simpa [KeysIn] using written_wf opts.sstBuilder hw⟩
  refine ⟨source,hl,?_⟩
  rw [hin.compact_eq X opts,mergeOrder_single,survivors_self hasc (by simp) hlive,
    buildSst_written X opts.sstBuilder hw,hb]

theorem compact_idempotent_sameKeys :
    ∃ bytes, compact .idle (sameKeys.map .ofEntries) ⟨plainOptions⟩ = .ok bytes ∧
      ∀ reader : FileReader, reader.contents = bytes →
        ∃ source, loadArenaSource .idle reader = .ok source ∧
          compact .idle [source] ⟨plainOptions⟩ = .ok bytes :=
  compact_idempotent .idle ⟨plainOptions⟩ _ sameKeys
    sameKeys_inputs
    (Nat.lt_of_le_of_lt (totalBytes_survivors_le sameKeys) (by decide))

theorem ordered_ext {es fs : List Entry} (he : Ordered es) (hf : Ordered fs)
    (h : ∀ e, e ∈ es ↔ e ∈ fs) : es = fs := by
  have hp : es.Perm fs := (List.perm_ext_iff_of_nodup he.distinct.nodup.of_map
    hf.distinct.nodup.of_map).mpr h
  have hle : ∀ {gs : List Entry}, Ordered gs → SortedEntries gs :=
    fun hg => hg.sorted.imp (fun hab => by rw [hab]; simp)
  exact sorted_unique he.distinct hp (hle he) (hle hf)

theorem newest_part {visible : Nat → Bool} {es fs : List Entry} (h : Distinct es)
    (hs : ∀ e ∈ fs, e ∈ es) (hk : ∀ e ∈ es, newestWhere visible es e = true → e ∈ fs)
    (e : Entry) :
    (e ∈ fs ∧ newestWhere visible fs e = true) ↔ (e ∈ es ∧ newestWhere visible es e = true) := by
  have hdown : ∀ x, newestWhere visible es x = true → newestWhere visible fs x = true := by
    intro x hx
    obtain ⟨hv,hmax⟩ := newestWhere_iff.mp hx
    exact newestWhere_iff.mpr ⟨hv,fun y hy => hmax y (hs y hy)⟩
  constructor
  · rintro ⟨he,hn⟩
    obtain ⟨m,hm,hu,hmn⟩ := exists_newest visible (hs e he) (newestWhere_iff.mp hn).1
    have hmf := hk m hm hmn
    -- The newest version of all is in the part and not older than `e`, which is the newest there.
    have h₁ := (newestWhere_iff.mp hn).2 m hmf hu (newestWhere_iff.mp hmn).1
    have h₂ := (newestWhere_iff.mp hmn).2 e (hs e he) hu.symm (newestWhere_iff.mp hn).1
    obtain rfl := h.eq (hs e he) hm hu.symm (Nat.le_antisymm h₂ h₁)
    exact ⟨hm,hmn⟩
  · rintro ⟨he,hn⟩
    exact ⟨hk e he hn,hdown e hn⟩

/-- What the snapshot-aware strategy drops from some of the entries it drops from all. -/
theorem snapshotKept_staged (s : Nat) {as bs : List Entry} (h : Distinct (as ++ bs)) (e : Entry) :
    e ∈ snapshotKept s (snapshotKept s as ++ bs) ↔ e ∈ snapshotKept s (as ++ bs) := by
  have hsub : ∀ x ∈ snapshotKept s as ++ bs, x ∈ as ++ bs :=
    fun x hx => ((snapshotKept_sublist s as).append_right bs).subset hx
  have hkeep : ∀ visible, (visible = always ∨ visible = upTo s) → ∀ x ∈ as ++ bs,
      newestWhere visible (as ++ bs) x = true → x ∈ snapshotKept s as ++ bs := by
    intro visible hv x hx hn
    rcases List.mem_append.mp hx with hx | hx
    · obtain ⟨hvx,hmax⟩ := newestWhere_iff.mp hn
      have hna : newestWhere visible as x = true :=
        newestWhere_iff.mpr ⟨hvx,fun y hy => hmax y (by simp [hy])⟩
      refine List.mem_append_left _ (mem_snapshotKept.mpr ⟨hx,?_⟩)
      rcases hv with rfl | rfl
      · exact .inl hna
      · exact .inr hna
    · exact List.mem_append_right _ hx
  have h₁ := newest_part h hsub (hkeep always (.inl rfl)) e
  have h₂ := newest_part h hsub (hkeep (upTo s) (.inr rfl)) e
  rw [mem_snapshotKept,mem_snapshotKept,and_or_left,and_or_left,h₁,h₂]

theorem mem_snapshotKept_perm (s : Nat) {es fs : List Entry} (hp : es.Perm fs) (e : Entry) :
    e ∈ snapshotKept s es ↔ e ∈ snapshotKept s fs := by
  rw [mem_snapshotKept,mem_snapshotKept,hp.mem_iff,newestWhere_perm hp,newestWhere_perm hp]

theorem totalBytes_snapshotKept_le (s : Nat) (ls : List (List Entry)) :
    totalBytes (snapshotKept s (mergedEntries ls)) ≤ totalBytes ls.flatten := by
  rw [← totalBytes_perm (mergedEntries_perm ls)]
  exact totalBytes_sublist (snapshotKept_sublist s _)

theorem decideAll_snapshotSeqno (st : SnapshotAwareStrategy) (calls : List (InternalKey × Bool)) :
    (decideAll st calls).2.snapshotSeqno = st.snapshotSeqno := by
  induction calls generalizing st with
  | nil => rfl
  | cons c calls ih =>
    obtain ⟨ik,isFirstForKey⟩ := c
    refine (ih (CompactionStrategy.decide st ik isFirstForKey).2).trans ?_
    simp only [CompactionStrategy.decide]
    split
    · split <;> rfl
    · split
      · rfl
      · split <;> rfl

theorem Inputs.snapshot_eq {sources : List ArenaSource} {ls : List (List Entry)}
    (h : Inputs sources ls) (X : Crates) {opts : CompactionOptions}
    (hext : opts.sstBuilder.externalSstGlobalSeqno = none) (st : SnapshotAwareStrategy) :
    ∃ bytes st', buildSst X opts.sstBuilder
        (snapshotKept st.snapshotSeqno (mergedEntries ls)) = .ok bytes ∧
      compactWithStrategy X sources opts st = .ok (bytes,st') ∧
      st'.snapshotSeqno = st.snapshotSeqno := by
  have hsub := snapshotKept_sublist st.snapshotSeqno (mergedEntries ls)
  obtain ⟨bytes,hb,-⟩ := buildSst_fileOf X opts.sstBuilder (writtenEntries_none _ hext
    (snapshotKept st.snapshotSeqno (mergedEntries ls))) (fun e he => h.fits e (hsub.subset he))
  refine ⟨bytes,_,hb,?_,decideAll_snapshotSeqno st (expectedCalls (mergedEntries ls))⟩
  rw [h.compactWithStrategy_eq X opts st,keptBy_snapshot st (mergedEntries_ordered h.distinct),hb]
  rfl

theorem Inputs.perm {sources sources' : List ArenaSource} {ls : List (List Entry)}
    (h : Inputs sources ls) (hp : sources'.Perm sources) :
    ∃ ls', Inputs sources' ls' ∧ ls'.Perm ls := by
  obtain ⟨ls',hy,hls⟩ := List.perm_comp_forall₂ hp h.yields
  exact ⟨ls',⟨hy,fun l hl => h.sorted l (hls.subset hl),h.distinct.perm hls.flatten.symm⟩,hls⟩

theorem snapshotKept_merged_staged (s : Nat) {lsA lsB ls : List (List Entry)}
    (hd : Distinct (mergedEntries lsA ++ lsB.flatten)) (hls : Distinct ls.flatten)
    (hp : ls.Perm (snapshotKept s (mergedEntries lsA) :: lsB)) :
    snapshotKept s (mergedEntries ls) = snapshotKept s (mergedEntries (lsA ++ lsB)) := by
  have hall : (mergedEntries (lsA ++ lsB)).Perm (mergedEntries lsA ++ lsB.flatten) := by
    refine (mergedEntries_perm (lsA ++ lsB)).trans ?_
    rw [List.flatten_append]
    exact (mergedEntries_perm lsA).symm.append_right _
  have hpart : (mergedEntries ls).Perm (snapshotKept s (mergedEntries lsA) ++ lsB.flatten) :=
    (mergedEntries_perm ls).trans hp.flatten
  have hord := mergedEntries_ordered (hd.perm (hall.symm.trans (mergedEntries_perm _)))
  refine ordered_ext ((mergedEntries_ordered hls).sublist (snapshotKept_sublist s _))
    (hord.sublist (snapshotKept_sublist s _)) (fun e => ?_)
  rw [mem_snapshotKept_perm s hpart,mem_snapshotKept_perm s hall]
  exact snapshotKept_staged s hd e

/-- Compacting some of the sources first does not change the outcome, also when the strategy of
the first stage is used for the second. -/
theorem snapshot_staged (X : Crates) (opts : CompactionOptions)
    (hext : opts.sstBuilder.externalSstGlobalSeqno = none) (s : Nat) (as bs : List ArenaSource)
    (lsA lsB : List (List Entry)) (ha : Inputs as lsA) (hb : Inputs bs lsB)
    (hd : Distinct (lsA ++ lsB).flatten)
    (hcap : totalBytes (snapshotKept s (mergedEntries lsA)) < 2^32) :
    ∃ stage left bytes right,
      compactWithStrategy X as opts (SnapshotAwareStrategy.new s) = .ok (stage,left) ∧
      compactWithStrategy X (as ++ bs) opts (SnapshotAwareStrategy.new s) = .ok (bytes,right) ∧
      ∀ reader : FileReader, reader.contents = stage →
        ∃ source, loadArenaSource X reader = .ok source ∧
          ∀ sources, sources.Perm (source :: bs) →
            ∀ st, st = SnapshotAwareStrategy.new s ∨ st = left →
              ∃ st', compactWithStrategy X sources opts st = .ok (bytes,st') := by
  have hall : Inputs (as ++ bs) (lsA ++ lsB) := by
    refine ⟨List.rel_append ha.yields hb.yields,fun l hl => ?_,hd⟩
    rcases List.mem_append.mp hl with hl | hl
    · exact ha.sorted l hl
    · exact hb.sorted l hl
  let kept := snapshotKept s (mergedEntries lsA)
  have hkept : kept.Sublist (mergedEntries lsA) := snapshotKept_sublist s (mergedEntries lsA)
  have hord : Ordered kept := (mergedEntries_ordered ha.distinct).sublist hkept
  obtain ⟨stage,left,hstage,hrun,hseq⟩ := ha.snapshot_eq X hext (.new s)
  obtain ⟨bytes,right,hbytes,hrun',-⟩ := hall.snapshot_eq X hext (.new s)
  refine ⟨stage,left,bytes,right,hrun,hrun',fun reader hr => ?_⟩
  obtain ⟨stage',hstage',hload⟩ := buildSst_loads X opts.sstBuilder hord.wf hcap
  obtain rfl : stage = stage' := Except.ok.inj (hstage.symm.trans hstage')
  obtain ⟨source,hl,hy⟩ := hload reader hr
  rw [written_none _ hext] at hy
  have hdm : Distinct (mergedEntries lsA ++ lsB.flatten) := by
    refine hd.perm ?_
    rw [List.flatten_append]
    exact (mergedEntries_perm lsA).symm.append_right _
  have hin : Inputs (source :: bs) (kept :: lsB) := by
    refine ⟨.cons hy hb.yields,fun l hl => ?_,?_⟩
    · rcases List.mem_cons.mp hl with rfl | hl
      · exact hord.sorted.imp (fun hab => by rw [hab]; simp)
      · exact hb.sorted l hl
    · rw [List.flatten_cons]
      exact hdm.sublist (hkept.append_right _)
  refine ⟨source,hl,fun sources hp st hst => ?_⟩
  obtain ⟨ls',hin',hls⟩ := hin.perm hp
  have hst' : st.snapshotSeqno = s := by
    rcases hst with rfl | rfl
    · rfl
    · exact hseq
  have hsame := snapshotKept_merged_staged s hdm hin'.distinct hls
  obtain ⟨out,st',hout,hrun'',-⟩ := hin'.snapshot_eq X hext st
  rw [hst',hsame] at hout
  obtain rfl : bytes = out := Except.ok.inj (hbytes.symm.trans hout)
  exact ⟨st',hrun''⟩

def stageOne : List (List Entry) :=
  [[([7] ++ leBytes 8 0x301,[3])],[([7] ++ leBytes 8 0x101,[1])]]

def stageTwo : List (List Entry) := [[([7] ++ leBytes 8 0x201,[2])]]

theorem snapshot_staged_three : ∃ stage left bytes right,
    compactWithStrategy .idle (stageOne.map .ofEntries) ⟨plainOptions⟩
      (SnapshotAwareStrategy.new 2) = .ok (stage,left) ∧
    compactWithStrategy .idle (stageOne.map .ofEntries ++ stageTwo.map .ofEntries) ⟨plainOptions⟩
      (SnapshotAwareStrategy.new 2) = .ok (bytes,right) ∧
    ∀ reader : FileReader, reader.contents = stage →
      ∃ source, loadArenaSource .idle reader = .ok source ∧
        ∀ sources, sources.Perm (source :: stageTwo.map .ofEntries) →
          ∀ st, st = SnapshotAwareStrategy.new 2 ∨ st = left →
            ∃ st', compactWithStrategy .idle sources ⟨plainOptions⟩ st = .ok (bytes,st') :=
  snapshot_staged .idle ⟨plainOptions⟩ rfl 2 _ _ stageOne stageTwo
    (Inputs.ofLists (by decide) (by decide) (by decide) (by decide))
    (Inputs.ofLists (by decide) (by decide) (by decide) (by decide))
    ⟨by decide,by decide⟩
    (Nat.lt_of_le_of_lt (totalBytes_snapshotKept_le 2 _) (by decide))

theorem mergedEntries_spread {ls ls' : List (List Entry)} (hd : Distinct ls.flatten)
    (hp : ls'.flatten.Perm ls.flatten) : mergedEntries ls' = mergedEntries ls := by
  have hm : (mergedEntries ls').Perm (mergedEntries ls) :=
    (mergedEntries_perm ls').trans (hp.trans (mergedEntries_perm ls).symm)
  exact sorted_unique (hd.perm (hp.symm.trans (mergedEntries_perm ls').symm)) hm
    (mergedEntries_sorted ls') (mergedEntries_sorted ls)

/-- How the entries are spread over the sources, and in which order the sources come, makes no
difference to any strategy. -/
theorem spread_unnoticed (X : Crates) (opts : CompactionOptions)
    {sources sources' : List ArenaSource} {ls ls' : List (List Entry)} (h : Inputs sources ls)
    (h' : Inputs sources' ls') (hp : ls'.flatten.Perm ls.flatten) {σ : Type}
    [CompactionStrategy σ] (st : σ) :
    compactWithStrategy X sources' opts st = compactWithStrategy X sources opts st := by
  rw [h.compactWithStrategy_eq X opts st,h'.compactWithStrategy_eq X opts st,
    mergedEntries_spread h.distinct hp]

theorem spread_unnoticed_two :
    compactWithStrategy .idle ([[],twoVersions.flatten].map .ofEntries) ⟨plainOptions⟩
        (SnapshotAwareStrategy.new 1) =
      compactWithStrategy .idle (twoVersions.map .ofEntries) ⟨plainOptions⟩
        (SnapshotAwareStrategy.new 1) :=
  spread_unnoticed .idle ⟨plainOptions⟩ twoVersions_inputs
    (Inputs.ofLists (by decide) (by decide) (by decide) (by decide)) (by rfl) _

end SstCompactor
