import SstCompactor.Compaction.Driver

/-!
What the strategies keep, and what readers find in it. Each strategy is a filter on the
merged entries; a reader is served when the version it looks for passes the filter.
-/

set_option autoImplicit false

namespace SstCompactor
open FixedWidth

def bottommostKept (es : List Entry) : List Entry :=
  es.filter (fun e => newestWhere always es e && !(valueType e.1).isTombstone)

theorem keptBy_bottommost (es : List Entry) :
    keptBy BottommostStrategy.mk es = bottommostKept es := by
  refine keptBy_filter _ (fun _ _ => True) trivial (fun pre e post st _ _ => ⟨?_,trivial⟩)
  cases hn : newestWhere always es e with
  | false => simp [CompactionStrategy.decide]
  | true =>
    cases ht : (valueType e.1).isTombstone with
    | false => simp [CompactionStrategy.decide,internalKeyOf,ht]
    | true => simp [CompactionStrategy.decide,internalKeyOf,ht]

theorem Inputs.compact_fileOf {sources : List ArenaSource} {ls : List (List Entry)}
    (h : Inputs sources ls) (X : Crates) (opts : CompactionOptions) : ∃ bytes,
      compact X sources opts = .ok bytes ∧
      FileOf X bytes (written opts.sstBuilder (bottommostKept (mergedEntries ls))) := by
  obtain ⟨bytes,hc,hread⟩ := h.compactWithStrategy_fileOf X opts BottommostStrategy.mk
  rw [keptBy_bottommost] at hread
  exact ⟨bytes,by simp only [compact,hc,ok_bind,pure_eq_ok],hread⟩

theorem mem_bottommostKept {es : List Entry} {e : Entry} :
    e ∈ bottommostKept es ↔ e ∈ es ∧ newestWhere always es e = true ∧
      (valueType e.1).isTombstone = false := by
  simp [bottommostKept]

theorem bottommostKept_userKeys {es : List Entry} (h : Distinct es) :
    ((bottommostKept es).map (fun e => userKey e.1)).Nodup := by
  have hnodup : (bottommostKept es).Nodup := (h.nodup.of_map _).filter _
  refine List.Nodup.map_on (fun a ha b hb hu => ?_) hnodup
  obtain ⟨ha,hna,-⟩ := mem_bottommostKept.mp ha
  obtain ⟨hb,hnb,-⟩ := mem_bottommostKept.mp hb
  exact newestWhere_unique h ha hb hu hna hnb

/-- The newest version of each user key and the newest one with a sequence number up to `s`. -/
def snapshotKept (s : Nat) (es : List Entry) : List Entry :=
  es.filter (fun e => newestWhere always es e || newestWhere (upTo s) es e)

def seenBelow (s : Nat) (pre : List Entry) (u : Bytes) : Bool :=
  pre.any (fun x => userKey x.1 == u && decide (sequence x.1 ≤ s))

theorem newestWhere_upTo {s : Nat} {pre post : List Entry} {e : Entry}
    (h : Ordered (pre ++ e :: post)) : newestWhere (upTo s) (pre ++ e :: post) e =
      (decide (sequence e.1 ≤ s) && !seenBelow s pre (userKey e.1)) := by
  have hpre := fun x hx => (List.pairwise_append.mp h.sorted).2.2 x hx e (by simp)
  have hpost := (List.pairwise_cons.mp (List.pairwise_append.mp h.sorted).2.1).1
  rw [Bool.eq_iff_iff,newestWhere_iff]
  simp only [upTo,decide_eq_true_eq,seenBelow,Bool.and_eq_true,Bool.not_eq_true',
    List.any_eq_false,beq_iff_eq,not_and]
  refine and_congr_right (fun _ => ⟨?_,?_⟩)
  · intro hn x hx hu hs
    have hle := hn x (by simp [hx]) hu hs
    have hlt := packed_lt_of_lt hu (hpre x hx)
    omega
  · intro hno x hx hu hs
    rcases List.mem_append.mp hx with hx | hx
    · exact absurd hs (hno x hx hu)
    · rcases List.mem_cons.mp hx with rfl | hx
      · exact Nat.le_refl _
      · exact Nat.le_of_lt (packed_lt_of_lt hu.symm (hpost x hx))

def SnapshotInv (s : Nat) (pre : List Entry) (st : SnapshotAwareStrategy) : Prop :=
  st.snapshotSeqno = s ∧ ∀ p, pre.getLast? = some p →
    st.keptVisibleVersionForCurrentKey = seenBelow s pre (userKey p.1)

theorem seenBelow_snoc (s : Nat) (pre : List Entry) (e : Entry) :
    seenBelow s (pre ++ [e]) (userKey e.1) =
      (seenBelow s pre (userKey e.1) || decide (sequence e.1 ≤ s)) := by
  simp [seenBelow]

theorem seenBelow_of_newest {s : Nat} {pre post : List Entry} {e : Entry}
    (h : Ordered (pre ++ e :: post)) (hn : newestWhere always (pre ++ e :: post) e = true) :
    seenBelow s pre (userKey e.1) = false := by
  simp only [seenBelow,List.any_eq_false,Bool.and_eq_true,beq_iff_eq,not_and]
  intro x hx hu
  have hlt := packed_lt_of_lt hu ((List.pairwise_append.mp h.sorted).2.2 x hx e (by simp))
  have hle := (newestWhere_iff.mp hn).2 x (by simp [hx]) hu rfl
  omega

theorem keptBy_snapshot (st : SnapshotAwareStrategy) {es : List Entry} (h : Ordered es) :
    keptBy st es = snapshotKept st.snapshotSeqno es := by
  refine keptBy_filter _ (SnapshotInv st.snapshotSeqno) ⟨rfl,by simp⟩ ?_
  generalize st.snapshotSeqno = s
  rintro pre e post ⟨seqno,flag⟩ rfl ⟨hs,hflag⟩
  simp only at hs hflag
  subst hs
  have hat := newestWhere_upTo (s:=seqno) h
  have hnext : ∀ kept : Bool, kept = (seenBelow seqno pre (userKey e.1) ||
      decide (sequence e.1 ≤ seqno)) → SnapshotInv seqno (pre ++ [e]) ⟨seqno,kept⟩ := by
    intro kept hh
    subst hh
    refine ⟨rfl,fun p hp => ?_⟩
    rw [List.getLast?_concat,Option.some.injEq] at hp
    subst hp
    exact (seenBelow_snoc seqno pre e).symm
  cases hn : newestWhere always (pre ++ e :: post) e with
  | true =>
    have hno := seenBelow_of_newest (s:=seqno) h hn
    rw [hno,Bool.false_or] at hnext
    by_cases hle : sequence e.1 ≤ seqno
    · simpa [CompactionStrategy.decide,internalKeyOf,hn,hle] using hnext true
    · simpa [CompactionStrategy.decide,internalKeyOf,hn,hle] using hnext false
  | false =>
    -- The entry before is another version of the same key, so the flag speaks of this key.
    have hlast : pre.getLast?.map (fun p => userKey p.1) = some (userKey e.1) := by
      rw [← first_iff_newest h] at hn
      simpa using hn
    obtain ⟨p,hp,hu⟩ := Option.map_eq_some_iff.mp hlast
    have hf := hflag p hp
    rw [hu] at hf
    subst hf
    cases hk : seenBelow seqno pre (userKey e.1) with
    | true =>
      rw [hk] at hat hnext
      simpa [CompactionStrategy.decide,internalKeyOf,hn,hat] using hnext true
    | false =>
      rw [hk] at hat hnext
      by_cases hle : sequence e.1 ≤ seqno
      · simpa [CompactionStrategy.decide,internalKeyOf,hn,hat,hle] using hnext true
      · simpa [CompactionStrategy.decide,internalKeyOf,hn,hat,hle] using hnext false

theorem findVersion_part (visible : Nat → Bool) {es fs : List Entry} (h : Distinct es)
    (hs : fs.Sublist es) (hk : ∀ e ∈ es, newestWhere visible es e = true → e ∈ fs) (u : Bytes) :
    findVersion visible fs u = findVersion visible es u := by
  have hd := h.sublist hs
  cases hf : findVersion visible es u with
  | none => exact findVersion_none.mpr (fun e he => findVersion_none.mp hf e (hs.subset he))
  | some e =>
    obtain ⟨he,hu,hn⟩ := (findVersion_some h).mp hf
    obtain ⟨hv,hmax⟩ := newestWhere_iff.mp hn
    exact (findVersion_some hd).mpr ⟨hk e he hn,hu,
      newestWhere_iff.mpr ⟨hv,fun x hx => hmax x (hs.subset hx)⟩⟩

theorem snapshotKept_sublist (s : Nat) (es : List Entry) : (snapshotKept s es).Sublist es :=
  List.filter_sublist

theorem mem_snapshotKept {s : Nat} {es : List Entry} {e : Entry} :
    e ∈ snapshotKept s es ↔
      e ∈ es ∧ (newestWhere always es e = true ∨ newestWhere (upTo s) es e = true) := by
  simp [snapshotKept]

theorem pairwise_toList {r : Entry → Entry → Prop} (o : Option Entry) : o.toList.Pairwise r := by
  cases o <;> simp

theorem versionsOf_snapshot_latest {es : List Entry} (h : Distinct es) (s : Nat) (u : Bytes)
    {x : Entry} {rest : List Entry} (hx : versionsOf always es u = x :: rest) :
    versionsOf always (snapshotKept s es) u =
      x :: if sequence x.1 ≤ s then [] else (versionsOf (upTo s) es u).head?.toList := by
  have hsub := snapshotKept_sublist s es
  have hhead : (versionsOf always es u).head? = some x := by rw [hx]; rfl
  obtain ⟨hxe,hxu,hxn⟩ := (versionsOf_head h).mp hhead
  have hmax := (newestWhere_iff.mp hxn).2
  split
  · rename_i hle
    refine versionsOf_unique (h.sublist hsub) (by simp) (fun e => ?_)
    simp only [List.mem_singleton,mem_snapshotKept]
    constructor
    · intro hh
      subst hh
      exact ⟨⟨hxe,.inl hxn⟩,hxu,rfl⟩
    · intro hh
      rcases hh with ⟨⟨he,hn | hn⟩,hu,-⟩
      · exact newestWhere_unique h he hxe (hu.trans hxu.symm) hn hxn
      · exact newestWhere_unique h he hxe (hu.trans hxu.symm) hn
          (newestWhere_of_always hxn (by simpa [upTo] using hle))
  · rename_i hgt
    refine versionsOf_unique (h.sublist hsub) (List.pairwise_cons.mpr ⟨?_,pairwise_toList _⟩)
      (fun e => ?_)
    · intro e he
      simp only [Option.mem_toList,versionsOf_head h] at he
      obtain ⟨he,hu,hn⟩ := he
      have hle := hmax e he (hu.trans hxu.symm) rfl
      have hs : sequence e.1 ≤ s := by simpa [upTo] using (newestWhere_iff.mp hn).1
      have hne : packed e.1 ≠ packed x.1 := by
        intro heq
        rw [sequence,heq] at hs
        exact hgt hs
      omega
    · simp only [List.mem_cons,Option.mem_toList,versionsOf_head h,
        mem_snapshotKept]
      constructor
      · intro hh
        rcases hh with rfl | ⟨he,hu,hn⟩
        · exact ⟨⟨hxe,.inl hxn⟩,hxu,rfl⟩
        · exact ⟨⟨he,.inr hn⟩,hu,rfl⟩
      · intro hh
        rcases hh with ⟨⟨he,hn | hn⟩,hu,-⟩
        · exact .inl (newestWhere_unique h he hxe (hu.trans hxu.symm) hn hxn)
        · exact .inr ⟨he,hu,hn⟩

theorem read_snapshotKept {ls : List (List Entry)} (h : Distinct ls.flatten) (s : Nat)
    (u : Bytes) :
    read always (snapshotKept s (mergedEntries ls)) u = read always ls.flatten u ∧
      read (upTo s) (snapshotKept s (mergedEntries ls)) u = read (upTo s) ls.flatten u := by
  have hp := mergedEntries_perm ls
  have hd := h.perm hp.symm
  have hsub := snapshotKept_sublist s (mergedEntries ls)
  have h₁ := findVersion_part always hd hsub
    (fun e he hn => mem_snapshotKept.mpr ⟨he,.inl hn⟩) u
  have h₂ := findVersion_part (upTo s) hd hsub
    (fun e he hn => mem_snapshotKept.mpr ⟨he,.inr hn⟩) u
  simp only [read,h₁,h₂,findVersion_perm hd hp u]
  exact ⟨trivial,trivial⟩

theorem Inputs.snapshot_fileOf {sources : List ArenaSource} {ls : List (List Entry)}
    (h : Inputs sources ls) (X : Crates) (opts : CompactionOptions) (s : Nat) : ∃ bytes s',
      compactWithStrategy X sources opts (SnapshotAwareStrategy.new s) = .ok (bytes,s') ∧
      FileOf X bytes (written opts.sstBuilder (snapshotKept s (mergedEntries ls))) := by
  obtain ⟨bytes,hc,hread⟩ := h.compactWithStrategy_fileOf X opts (SnapshotAwareStrategy.new s)
  rw [keptBy_snapshot (.new s) (mergedEntries_ordered h.distinct)] at hread
  exact ⟨bytes,_,hc,hread⟩

/-- The output is, for each user key, its newest version and then its newest version at the
snapshot, which is all that the two readers need. -/
theorem snapshot_iff (X : Crates) (opts : CompactionOptions)
    (hext : opts.sstBuilder.externalSstGlobalSeqno = none) (sources : List ArenaSource)
    (ls : List (List Entry)) (h : Inputs sources ls) (s : Nat) :
    ∃ bytes s', compactWithStrategy X sources opts (SnapshotAwareStrategy.new s) =
        .ok (bytes,s') ∧
      ∀ reader : FileReader, reader.contents = bytes →
        ((∃ out, decodeSst X reader = .ok out ∧ out = snapshotKept s (mergedEntries ls) ∧
          ∀ u, read always out u = read always ls.flatten u ∧
            read (upTo s) out u = read (upTo s) ls.flatten u) ↔
          dataBlockCount (snapshotKept s (mergedEntries ls)) < 2^32) := by
  obtain ⟨bytes,s',hc,hread⟩ := h.snapshot_fileOf X opts s
  rw [written_none _ hext] at hread
  refine ⟨bytes,s',hc,fun reader hr => ?_⟩
  rw [(hread reader hr).iff]
  exact and_iff_left ⟨rfl,read_snapshotKept h.distinct s⟩

theorem snapshot_two : ∃ bytes s',
    compactWithStrategy .idle (twoVersions.map .ofEntries) ⟨plainOptions⟩
      (SnapshotAwareStrategy.new 1) = .ok (bytes,s') ∧
    ∀ reader : FileReader, reader.contents = bytes →
      ((∃ out, decodeSst .idle reader = .ok out ∧
        out = snapshotKept 1 (mergedEntries twoVersions) ∧
        ∀ u, read always out u = read always twoVersions.flatten u ∧
          read (upTo 1) out u = read (upTo 1) twoVersions.flatten u) ↔
        dataBlockCount (snapshotKept 1 (mergedEntries twoVersions)) < 2^32) :=
  snapshot_iff .idle ⟨plainOptions⟩ rfl _ _ twoVersions_inputs 1

theorem newestWhere_of_nodup {visible : Nat → Bool} {es : List Entry}
    (h : (es.map (fun e => userKey e.1)).Nodup) {e : Entry} (he : e ∈ es)
    (hv : visible (sequence e.1) = true) : newestWhere visible es e = true := by
  refine newestWhere_iff.mpr ⟨hv,fun x hx hu _ => ?_⟩
  rw [List.inj_on_of_nodup_map h hx he hu]

theorem manyKeys_newest {e : Entry} (he : e ∈ mergedEntries manyKeys) :
    newestWhere always (mergedEntries manyKeys) e = true := by
  have hp := mergedEntries_perm manyKeys
  rw [newestWhere_perm hp]
  exact newestWhere_of_nodup manyKeys_userKeys (hp.subset he) rfl

theorem manyKeys_snapshotKept (s : Nat) :
    snapshotKept s (mergedEntries manyKeys) = mergedEntries manyKeys :=
  List.filter_eq_self.mpr (fun e he => by simp [manyKeys_newest he])

theorem manyKeys_bottommostKept :
    bottommostKept (mergedEntries manyKeys) = mergedEntries manyKeys := by
  refine List.filter_eq_self.mpr (fun e he => ?_)
  have hf := (mergedEntries_perm manyKeys).subset he
  rw [manyKeys_flatten] at hf
  obtain ⟨i,-,rfl⟩ := List.mem_map.mp hf
  have ht : (valueType (manyKey i).1).isTombstone = false := by
    rw [valueType,manyKey,packed_append _ _ (leBytes_length _ _)]
    decide
  simp [manyKeys_newest he,ht]

theorem manyKeys_compact_unreadable (opts : SstBuilderOptions)
    (ho : (strBytes opts.comparatorName).length+(strBytes opts.columnFamilyName).length < 2^50) :
    ∃ (reader : FileReader) (e : Fault),
      compact .idle (manyKeys.map ArenaSource.ofEntries) ⟨opts⟩ = .ok reader.contents ∧
      decodeSst .idle reader = .error e := by
  obtain ⟨reader,s',e,hc,he⟩ := manyKeys_unreadable opts ho (s:=BottommostStrategy.mk)
    (by rw [keptBy_bottommost,manyKeys_bottommostKept])
  exact ⟨reader,e,by simp only [compact,hc,ok_bind,pure_eq_ok],he⟩

theorem snapshot_manyKeys :
    plainOptions.externalSstGlobalSeqno = none ∧
    Inputs (manyKeys.map ArenaSource.ofEntries) manyKeys ∧
    ¬ ∃ bytes s', compactWithStrategy .idle (manyKeys.map ArenaSource.ofEntries) ⟨plainOptions⟩
        (SnapshotAwareStrategy.new 0) = .ok (bytes,s') ∧
      ∀ reader : FileReader, reader.contents = bytes →
        ∃ out, decodeSst .idle reader = .ok out ∧
          out = snapshotKept 0 (mergedEntries manyKeys) ∧
          ∀ u, read always out u = read always manyKeys.flatten u ∧
            read (upTo 0) out u = read (upTo 0) manyKeys.flatten u := by
  refine ⟨rfl,manyKeys_inputs,?_⟩
  intro hh
  obtain ⟨bytes,s',hc,hread⟩ := hh
  have hkept : keptBy (SnapshotAwareStrategy.new 0) (mergedEntries manyKeys) =
      mergedEntries manyKeys := by
    rw [keptBy_snapshot (.new 0) (mergedEntries_ordered manyKeys_inputs.distinct),
      manyKeys_snapshotKept]
  obtain ⟨reader,s'',e,hc',he⟩ := manyKeys_unreadable plainOptions (by decide) hkept
  rw [hc,Except.ok.injEq,Prod.mk.injEq] at hc'
  obtain ⟨out,hd,-⟩ := hread reader hc'.1.symm
  rw [he] at hd
  contradiction

theorem findVersion_congr {visible visible' : Nat → Bool} {es : List Entry} {u : Bytes}
    (h : ∀ e ∈ es, userKey e.1 = u → visible (sequence e.1) = visible' (sequence e.1)) :
    findVersion visible es u = findVersion visible' es u := by
  rw [findVersion,findVersion,← List.head?_filter,← List.head?_filter]
  refine congrArg List.head? (List.filter_congr (fun e he => ?_))
  by_cases hu : userKey e.1 = u
  · have hn : newestWhere visible es e = newestWhere visible' es e := by
      rw [Bool.eq_iff_iff,newestWhere_iff,newestWhere_iff,h e he hu]
      refine and_congr_right (fun _ => forall₂_congr (fun x hx => ?_))
      exact forall_congr' (fun hxu => by rw [h x hx (hxu.trans hu)])
    rw [hn]
  · simp [beq_eq_false_iff_ne.mpr hu]

/-- A reader later than the snapshot finds the newest version if it may see it, and otherwise
what the reader at the snapshot finds. -/
theorem read_later {es : List Entry} (h : Distinct es) {s r : Nat} (hsr : s ≤ r) (u : Bytes) :
    read (upTo r) (snapshotKept s es) u =
      if ∀ e ∈ es, userKey e.1 = u → sequence e.1 ≤ r then read (upTo r) es u
      else read (upTo s) es u := by
  have hsub := snapshotKept_sublist s es
  split
  · rename_i hall
    -- Nobody is later than `r`, who therefore reads the present state.
    have hv : ∀ fs : List Entry, fs.Sublist es →
        findVersion (upTo r) fs u = findVersion always fs u := by
      intro fs hfs
      refine findVersion_congr (fun e he hu => ?_)
      simp [upTo,always,hall e (hfs.subset he) hu]
    have hpart := findVersion_part always h hsub
      (fun e he hn => mem_snapshotKept.mpr ⟨he,.inl hn⟩) u
    simp only [read,hv _ hsub,hv _ (List.Sublist.refl es),hpart]
  · rename_i hlate
    obtain ⟨x,hx,hxu,hxr⟩ : ∃ x ∈ es, userKey x.1 = u ∧ r < sequence x.1 := by
      simpa using hlate
    have hpart := findVersion_part (upTo s) h hsub
      (fun e he hn => mem_snapshotKept.mpr ⟨he,.inr hn⟩) u
    have hv : findVersion (upTo r) (snapshotKept s es) u =
        findVersion (upTo s) (snapshotKept s es) u := by
      refine findVersion_congr (fun e he hu => ?_)
      rcases (mem_snapshotKept.mp he).2 with hn | hn
      · -- The newest version is at least as late as `x`.
        have hle := (newestWhere_iff.mp hn).2 x hx (hxu.trans hu.symm) rfl
        have hseq : sequence x.1 ≤ sequence e.1 := by
          rw [sequence_eq,sequence_eq]
          exact Nat.div_le_div_right hle
        have hr : ¬ sequence e.1 ≤ r := by omega
        have hs : ¬ sequence e.1 ≤ s := by omega
        simp [upTo,hr,hs]
      · have hs : sequence e.1 ≤ s := by simpa [upTo] using (newestWhere_iff.mp hn).1
        have hr : sequence e.1 ≤ r := by omega
        simp [upTo,hs,hr]
    simp only [read,hv,hpart]

def UnchangedSince (s r : Nat) (es : List Entry) (u : Bytes) : Prop :=
  (∀ e ∈ es, userKey e.1 = u → sequence e.1 ≤ r) ∨ read (upTo r) es u = read (upTo s) es u

theorem findVersion_merged {ls : List (List Entry)} (h : Distinct ls.flatten)
    (visible : Nat → Bool) (u : Bytes) :
    findVersion visible (mergedEntries ls) u = findVersion visible ls.flatten u :=
  findVersion_perm (h.perm (mergedEntries_perm ls).symm) (mergedEntries_perm ls) u

theorem read_merged {ls : List (List Entry)} (h : Distinct ls.flatten) (visible : Nat → Bool)
    (u : Bytes) : read visible (mergedEntries ls) u = read visible ls.flatten u := by
  rw [read,read,findVersion_merged h]

theorem read_later_iff {ls : List (List Entry)} (h : Distinct ls.flatten) {s r : Nat}
    (hsr : s ≤ r) (u : Bytes) :
    read (upTo r) (snapshotKept s (mergedEntries ls)) u = read (upTo r) ls.flatten u ↔
      UnchangedSince s r ls.flatten u := by
  have hp := mergedEntries_perm ls
  have hd := h.perm hp.symm
  rw [read_later hd hsr,read_merged h,read_merged h]
  simp only [hp.mem_iff,UnchangedSince]
  split
  · rename_i hall
    exact iff_of_true rfl (.inl hall)
  · rename_i hlate
    rw [or_iff_right hlate,eq_comm]

/-- The byte of the suffix that `zero_out_seqno` keeps. -/
def typeByte (k : Bytes) : Nat := packed k &&& 0xff

theorem typeByte_lt (k : Bytes) : typeByte k < 256 :=
  Nat.lt_of_le_of_lt Nat.and_le_right (by decide)

section
variable {opts : SstBuilderOptions} {g : UInt64}

theorem packed_writtenEntry (hext : opts.externalSstGlobalSeqno = some g) (e : Entry) :
    packed (writtenEntry opts e).1 = typeByte e.1 := by
  have hlt : packed e.1 &&& 0xff < 256^8 := Nat.lt_of_lt_of_le (typeByte_lt e.1) (by decide)
  rw [writtenEntry,hext]
  exact (packed_append _ _ (leBytes_length _ _)).trans (ofLe_leBytes_of_lt hlt)

theorem sequence_writtenEntry (hext : opts.externalSstGlobalSeqno = some g) (e : Entry) :
    sequence (writtenEntry opts e).1 = 0 := by
  rw [sequence_eq,packed_writtenEntry hext]
  exact Nat.div_eq_of_lt (typeByte_lt e.1)

def widest (vs : List Entry) : Option Entry :=
  vs.find? (fun e => vs.all (fun x => typeByte x.1 ≤ typeByte e.1))

theorem newestWhere_erased (hext : opts.externalSstGlobalSeqno = some g) {visible : Nat → Bool}
    (hv : visible 0 = true) (es : List Entry) (e : Entry) :
    newestWhere visible (written opts es) (writtenEntry opts e) = true ↔
      ∀ x ∈ es, userKey x.1 = userKey e.1 → typeByte x.1 ≤ typeByte e.1 := by
  rw [newestWhere_iff,sequence_writtenEntry hext,and_iff_right hv,written_eq_map]
  simp only [List.forall_mem_map,(writtenEntry_key opts _).1,packed_writtenEntry hext,
    sequence_writtenEntry hext,hv,forall_const]

/-- Without sequence numbers the type bytes decide, and then the order in the file. -/
theorem findVersion_erased (hext : opts.externalSstGlobalSeqno = some g) {visible : Nat → Bool}
    (hv : visible 0 = true) {es : List Entry} (h : Ordered es) (u : Bytes) :
    findVersion visible (written opts es) u =
      (widest (versionsOf always es u)).map (writtenEntry opts) := by
  have hfind : ∀ q, (written opts es).find? q =
      (es.find? (q ∘ writtenEntry opts)).map (writtenEntry opts) := by
    intro q
    rw [written_eq_map,List.find?_map]
  rw [versionsOf_ordered h,widest,List.find?_filter,findVersion,hfind]
  congr 2
  funext e
  rw [Bool.eq_iff_iff]
  simp only [Function.comp_apply,Bool.and_eq_true,beq_iff_eq,(writtenEntry_key opts e).1,
    newestWhere_erased hext hv,List.all_eq_true,decide_eq_true_eq,List.mem_filter,and_imp]
  refine and_congr_right (fun hu => forall₂_congr (fun x _ => ?_))
  rw [hu]

end

def OlderIsWider (s : Nat) (es : List Entry) (u : Bytes) : Prop :=
  ∃ x m, findVersion always es u = some x ∧ findVersion (upTo s) es u = some m ∧
    typeByte x.1 < typeByte m.1

theorem widest_snapshotKept {es : List Entry} (h : Distinct es) (s : Nat) (u : Bytes) :
    (OlderIsWider s es u → widest (versionsOf always (snapshotKept s es) u) =
      findVersion (upTo s) es u) ∧
    (¬ OlderIsWider s es u → widest (versionsOf always (snapshotKept s es) u) =
      findVersion always es u) := by
  rw [OlderIsWider,findVersion_eq_head h,findVersion_eq_head h]
  cases hvs : versionsOf always es u with
  | nil =>
    have hkept := versionsOf_eq_nil hvs (snapshotKept_sublist s es).subset always
    simp [hkept,widest]
  | cons x rest =>
    rw [versionsOf_snapshot_latest h s u hvs]
    cases hws : (versionsOf (upTo s) es u).head? with
    | none => simp [widest]
    | some m =>
      by_cases hle : sequence x.1 ≤ s
      · -- The newest version is the newest one at the snapshot too.
        have hx : x = m := by
          have hxn := (versionsOf_head h).mp (show (versionsOf always es u).head? = some x by
            rw [hvs]; rfl)
          have hmn := (versionsOf_head h).mp hws
          exact newestWhere_unique h hxn.1 hmn.1 (hxn.2.1.trans hmn.2.1.symm)
            (newestWhere_of_always hxn.2.2 (by simpa [upTo] using hle)) hmn.2.2
        subst hx
        simp [hle,widest]
      · by_cases ht : typeByte x.1 < typeByte m.1
        · have hm : ¬ typeByte m.1 ≤ typeByte x.1 := by omega
          simp [hle,widest,ht,hm,Nat.le_of_lt ht]
        · have hm : typeByte m.1 ≤ typeByte x.1 := by omega
          simp [hle,widest,ht,hm]

theorem read_erased {opts : SstBuilderOptions} {g : UInt64}
    (hext : opts.externalSstGlobalSeqno = some g) {es : List Entry} (h : Ordered es)
    (s r : Nat) (u : Bytes) :
    (OlderIsWider s es u →
      read (upTo r) (written opts (snapshotKept s es)) u = read (upTo s) es u) ∧
    (¬ OlderIsWider s es u →
      read (upTo r) (written opts (snapshotKept s es)) u = read always es u) := by
  have hread : ∀ visible,
      widest (versionsOf always (snapshotKept s es) u) = findVersion visible es u →
      read (upTo r) (written opts (snapshotKept s es)) u = read visible es u := by
    intro visible hw
    rw [read,findVersion_erased hext (by simp [upTo]) (h.sublist (snapshotKept_sublist s es)),hw,
      read]
    cases findVersion visible es u with
    | none => rfl
    | some e => simp only [Option.map_some,(writtenEntry_key opts e).2,writtenEntry_snd]
  obtain ⟨hw,hn⟩ := widest_snapshotKept h.distinct s u
  exact ⟨fun ho => hread _ (hw ho),fun ho => hread _ (hn ho)⟩

/-- The key reads at `r` as it did at `s`, and still does, or the type bytes put the version at
`s` in front. -/
def UnchangedOrWider (s r : Nat) (es : List Entry) (u : Bytes) : Prop :=
  read (upTo r) es u = read (upTo s) es u ∧
    (read always es u = read (upTo s) es u ∨ OlderIsWider s es u)

def ServedAt (opts : SstBuilderOptions) (s r : Nat) (es : List Entry) (u : Bytes) : Prop :=
  (opts.externalSstGlobalSeqno = none → UnchangedSince s r es u) ∧
    (opts.externalSstGlobalSeqno ≠ none → UnchangedOrWider s r es u)

theorem read_erased_iff {opts : SstBuilderOptions} {g : UInt64}
    (hext : opts.externalSstGlobalSeqno = some g) {ls : List (List Entry)}
    (h : Distinct ls.flatten) {live : List Nat} {s : Nat} (hs : s ∈ live) (u : Bytes) :
    (∀ r ∈ live, read (upTo r) (written opts (snapshotKept s (mergedEntries ls))) u =
        read (upTo r) ls.flatten u) ↔ ∀ r ∈ live, UnchangedOrWider s r ls.flatten u := by
  have hwider : OlderIsWider s (mergedEntries ls) u ↔ OlderIsWider s ls.flatten u := by
    simp only [OlderIsWider,findVersion_merged h]
  have hout := fun r => read_erased hext (mergedEntries_ordered h) s r u
  simp only [read_merged h,hwider] at hout
  simp only [UnchangedOrWider]
  by_cases ho : OlderIsWider s ls.flatten u
  · simp only [fun r => (hout r).1 ho,ho,or_true,and_true]
    exact forall₂_congr (fun r _ => eq_comm)
  · simp only [fun r => (hout r).2 ho,ho,or_false]
    constructor
    · intro hh r hr
      exact ⟨(hh r hr).symm.trans (hh s hs),hh s hs⟩
    · intro hh r hr
      exact (hh r hr).2.trans (hh r hr).1.symm

/-- A compaction that knows the earliest of several snapshots serves them all if and only if,
for each of them and each user key, no version is later or the key reads as it did at the
earliest; in ingest mode, if and only if nothing has changed since, or only what the type bytes
undo. -/
theorem earliestSnapshot_iff (X : Crates) (opts : CompactionOptions) (sources : List ArenaSource)
    (ls : List (List Entry)) (h : Inputs sources ls) (live : List Nat) (s : Nat)
    (hs : live.min? = some s) :
    ∃ bytes s', compactWithStrategy X sources opts (SnapshotAwareStrategy.new s) =
        .ok (bytes,s') ∧
      ∀ reader : FileReader, reader.contents = bytes →
        ((∃ out, decodeSst X reader = .ok out ∧
          ∀ r ∈ live, ∀ u, read (upTo r) out u = read (upTo r) ls.flatten u) ↔
          dataBlockCount (written opts.sstBuilder (snapshotKept s (mergedEntries ls))) < 2^32 ∧
            ∀ r ∈ live, ∀ u, ServedAt opts.sstBuilder s r ls.flatten u) := by
  obtain ⟨bytes,s',hc,hread⟩ := h.snapshot_fileOf X opts s
  refine ⟨bytes,s',hc,fun reader hr => ?_⟩
  rw [(hread reader hr).iff (fun out => ∀ r ∈ live, ∀ u,
    read (upTo r) out u = read (upTo r) ls.flatten u)]
  refine and_congr_right (fun _ => ?_)
  obtain ⟨hmem,hmin⟩ := List.min?_eq_some_iff.mp hs
  cases hext : opts.sstBuilder.externalSstGlobalSeqno with
  | none =>
    rw [written_none _ hext]
    simp only [ServedAt,hext,ne_eq,not_true_eq_false,false_implies,and_true,forall_const]
    exact forall₂_congr (fun r hr => forall_congr' (fun u => read_later_iff h.distinct (hmin r hr) u))
  | some g =>
    simp only [ServedAt,hext,reduceCtorEq,false_implies,ne_eq,not_false_eq_true,forall_const,
      true_and]
    have hread := fun u => read_erased_iff hext h.distinct hmem u
    exact ⟨fun hh r hr u => (hread u).mp (fun r hr => hh r hr u) r hr,
      fun hh r hr u => (hread u).mpr (fun r hr => hh r hr u) r hr⟩

theorem earliestSnapshot_two : [plainOptions,ingestOptions].Forall (fun opts => ∃ bytes s',
    compactWithStrategy .idle (twoVersions.map .ofEntries) ⟨opts⟩
      (SnapshotAwareStrategy.new 1) = .ok (bytes,s') ∧
    ∀ reader : FileReader, reader.contents = bytes →
      ((∃ out, decodeSst .idle reader = .ok out ∧
        ∀ r ∈ [2,1], ∀ u, read (upTo r) out u = read (upTo r) twoVersions.flatten u) ↔
        dataBlockCount (written opts (snapshotKept 1 (mergedEntries twoVersions))) < 2^32 ∧
          ∀ r ∈ [2,1], ∀ u, ServedAt opts 1 r twoVersions.flatten u)) :=
  ⟨earliestSnapshot_iff .idle ⟨plainOptions⟩ _ _ twoVersions_inputs [2,1] 1 (by decide),
    earliestSnapshot_iff .idle ⟨ingestOptions⟩ _ _ twoVersions_inputs [2,1] 1 (by decide)⟩

def threeVersions : List (List Entry) :=
  [[([7] ++ leBytes 8 0x301,[3]),([7] ++ leBytes 8 0x201,[2]),([7] ++ leBytes 8 0x101,[1])]]

theorem threeVersions_inputs : Inputs (threeVersions.map .ofEntries) threeVersions :=
  Inputs.ofLists (by decide) (by decide) (by decide) (by decide)

theorem earliestSnapshot_three :
    Inputs (threeVersions.map .ofEntries) threeVersions ∧ [1,2].min? = some 1 ∧
    ¬ ∃ bytes s', compactWithStrategy .idle (threeVersions.map .ofEntries) ⟨plainOptions⟩
        (SnapshotAwareStrategy.new 1) = .ok (bytes,s') ∧
      ∀ reader : FileReader, reader.contents = bytes →
        ∃ out, decodeSst .idle reader = .ok out ∧
          ∀ r ∈ [1,2], ∀ u, read (upTo r) out u = read (upTo r) threeVersions.flatten u := by
  refine ⟨threeVersions_inputs,by decide,?_⟩
  intro hh
  obtain ⟨bytes,s',hc,hread⟩ := hh
  obtain ⟨reader,s'',hc',hback⟩ := threeVersions_inputs.opens (SnapshotAwareStrategy.new 1)
    (by decide) (by decide)
  rw [hc,Except.ok.injEq,Prod.mk.injEq] at hc'
  rw [keptBy_snapshot (.new 1) (mergedEntries_ordered threeVersions_inputs.distinct)] at hback
  have hreads := (hback.iff _).mp (hread reader hc'.1.symm)
  have hsecond := (read_later_iff threeVersions_inputs.distinct (by decide) [7]).mp
    (hreads.2 2 (by decide) [7])
  rcases hsecond with hlast | hsame
  · exact absurd hlast (by decide)
  · exact absurd hsame (by decide)

end SstCompactor
