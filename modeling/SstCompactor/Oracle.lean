import SstCompactor.Compaction.Policies
import Std.Data.TreeMap.Lemmas

set_option autoImplicit false

namespace SstCompactor
open FixedWidth

namespace Oracle

inductive ValueType where
  | deletion | value | singleDeletion
  | other : UInt8 → ValueType
  deriving DecidableEq, Repr

def decodeSuffix (internalKey : Bytes) : Exec (Bytes × Nat × ValueType) := do
  let n ← checkedSub internalKey.length 8
  let userKey := internalKey.take n
  let packed := ofLe (internalKey.drop n)
  let seq := packed >>> 8
  let b := UInt8.ofNat (packed &&& 0xff)
  let ty := if b = 0x0 then .deletion
    else if b = 0x1 then .value
    else if b = 0x7 then .singleDeletion
    else .other b
  pure (userKey,seq,ty)

def ValueType.isTombstone : ValueType → Bool
  | .deletion | .singleDeletion => true
  | _ => false

/-- The best sequence number so far, the value and whether it is a deletion mark. -/
abbrev Best := Std.TreeMap Bytes (Nat × Bytes × Bool) compare

/-- The body of the two loops. -/
def visit (best : Best) (e : Entry) : Exec Best := do
  let (userKey,seq,ty) ← decodeSuffix e.1
  let isTombstone := ty.isTombstone
  match best[userKey]? with
  | some (existingSeq,_,_) =>
    if existingSeq ≥ seq then pure best
    else pure (best.insert userKey (seq,e.2,isTombstone))
  | none => pure (best.insert userKey (seq,e.2,isTombstone))

def naiveCompact (sources : List (List Entry)) : Exec (List (Bytes × Bytes)) := do
  let best ← sources.foldlM (fun best source => source.foldlM visit best) (∅ : Best)
  pure ((best.toList.filter (fun p => !p.2.2.2)).map (fun p => (p.1,p.2.2.1)))

theorem decodeSuffix_ok {k : Bytes} (h : WellFormed k) : ∃ ty,
    decodeSuffix k = .ok (userKey k,sequence k,ty) ∧
      ty.isTombstone = (valueType k).isTombstone := by
  have hk : 8 ≤ k.length := h
  refine ⟨_,by simp only [decodeSuffix,checkedSub_of_le hk,ok_bind,pure_eq_ok]; rfl,?_⟩
  have hb : UInt8.ofNat (ofLe (k.drop (k.length-8)) &&& 0xff) =
      UInt8.ofNat (packed k &&& 0xff) := rfl
  rw [valueType,SstCompactor.ValueType.fromByte,hb]
  generalize UInt8.ofNat (packed k &&& 0xff) = b
  split_ifs <;> first | rfl | contradiction | (subst_vars; contradiction)

def UniqueSequences (es : List Entry) : Prop :=
  es.Pairwise (fun a b => userKey a.1 = userKey b.1 → sequence a.1 ≠ sequence b.1)

instance (es : List Entry) : Decidable (UniqueSequences es) :=
  List.instDecidablePairwise (R:=fun a b : Entry =>
    userKey a.1 = userKey b.1 → sequence a.1 ≠ sequence b.1) es

theorem UniqueSequences.nodup {es : List Entry} (h : UniqueSequences es) :
    (es.map Prod.fst).Nodup :=
  List.pairwise_map.mpr (h.imp (fun hab heq => hab (congrArg userKey heq)
    (congrArg sequence heq)))

theorem packed_lt_of_sequence {a b : Bytes} (h : sequence a < sequence b) :
    packed a < packed b := by
  rw [sequence_eq,sequence_eq] at h
  omega

theorem newestWhere_snoc {es : List Entry} {e x : Entry} :
    newestWhere always (es ++ [e]) x = true ↔
      (∀ y ∈ es, userKey y.1 = userKey x.1 → packed y.1 ≤ packed x.1) ∧
        (userKey e.1 = userKey x.1 → packed e.1 ≤ packed x.1) := by
  rw [newestWhere_iff]
  simp [always,or_imp,forall_and]

theorem findVersion_snoc {es : List Entry} {e : Entry} (hd : Distinct (es ++ [e]))
    (hs : UniqueSequences (es ++ [e])) (u : Bytes) :
    findVersion always (es ++ [e]) u =
      if userKey e.1 = u then
        match findVersion always es u with
        | some x => if sequence x.1 ≥ sequence e.1 then some x else some e
        | none => some e
      else findVersion always es u := by
  have hd₀ := hd.sublist (List.sublist_append_left es [e])
  have hne : ∀ x ∈ es, userKey x.1 = userKey e.1 → sequence x.1 ≠ sequence e.1 :=
    fun x hx => (List.pairwise_append.mp hs).2.2 x hx e (by simp)
  by_cases hu : userKey e.1 = u
  · rw [if_pos hu]
    cases hf : findVersion always es u with
    | none =>
      have hno := findVersion_none.mp hf
      refine (findVersion_some hd).mpr ⟨by simp,hu,newestWhere_snoc.mpr ⟨?_,fun _ => Nat.le_refl _⟩⟩
      exact fun y hy hyu => absurd (hno y hy (hyu.trans hu)) (by simp [always])
    | some x =>
      obtain ⟨hx,hxu,hxn⟩ := (findVersion_some hd₀).mp hf
      have hmax := (newestWhere_iff.mp hxn).2
      have hxe := hne x hx (hxu.trans hu.symm)
      simp only
      split
      · rename_i hge
        have hp : packed e.1 < packed x.1 := packed_lt_of_sequence (by omega)
        exact (findVersion_some hd).mpr ⟨by simp [hx],hxu,newestWhere_snoc.mpr
          ⟨fun y hy hyu => hmax y hy hyu rfl,fun _ => Nat.le_of_lt hp⟩⟩
      · rename_i hlt
        have hp : packed x.1 < packed e.1 := packed_lt_of_sequence (by omega)
        refine (findVersion_some hd).mpr
          ⟨by simp,hu,newestWhere_snoc.mpr ⟨fun y hy hyu => ?_,fun _ => Nat.le_refl _⟩⟩
        have hle := hmax y hy (hyu.trans (hu.trans hxu.symm)) rfl
        omega
  · rw [if_neg hu]
    cases hf : findVersion always es u with
    | none =>
      have hno := findVersion_none.mp hf
      refine findVersion_none.mpr (fun x hx hxu => ?_)
      rcases List.mem_append.mp hx with hx | hx
      · exact hno x hx hxu
      · rw [List.mem_singleton.mp hx] at hxu
        exact absurd hxu hu
    | some x =>
      obtain ⟨hx,hxu,hxn⟩ := (findVersion_some hd₀).mp hf
      exact (findVersion_some hd).mpr ⟨by simp [hx],hxu,newestWhere_snoc.mpr
        ⟨fun y hy hyu => (newestWhere_iff.mp hxn).2 y hy hyu rfl,
          fun heu => absurd (heu.trans hxu) hu⟩⟩

def recordOf (e : Entry) : Nat × Bytes × Bool :=
  (sequence e.1,e.2,(valueType e.1).isTombstone)

/-- The map holds, for each user key, the newest version among the entries seen. -/
def Holds (es : List Entry) (best : Best) : Prop :=
  ∀ u, best[u]? = (findVersion always es u).map recordOf

theorem visit_holds {es : List Entry} {e : Entry} {best : Best} (hd : Distinct (es ++ [e]))
    (hs : UniqueSequences (es ++ [e])) (h : Holds es best) :
    ∃ best', visit best e = .ok best' ∧ Holds (es ++ [e]) best' := by
  obtain ⟨ty,hty,ht⟩ := decodeSuffix_ok (hd.wf e (by simp))
  have hinsert : ∀ u, (best.insert (userKey e.1) (recordOf e))[u]? =
      if userKey e.1 = u then some (recordOf e) else best[u]? := by
    intro u
    rw [Std.TreeMap.getElem?_insert]
    simp only [Std.LawfulEqCmp.compare_eq_iff_eq]
  have hsnoc := findVersion_snoc hd hs
  simp only [visit,hty,ok_bind,ht]
  rw [h (userKey e.1)]
  cases hf : findVersion always es (userKey e.1) with
  | none =>
    refine ⟨_,rfl,fun u => ?_⟩
    rw [hsnoc]
    refine (hinsert u).trans ?_
    split
    · rename_i hu
      rw [← hu,hf]
      rfl
    · exact h u
  | some x =>
    simp only [Option.map_some,recordOf]
    split
    · rename_i hge
      refine ⟨_,rfl,fun u => ?_⟩
      rw [hsnoc,h u]
      split
      · rename_i hu
        rw [← hu,hf]
        simp only [if_pos hge]
      · rfl
    · rename_i hlt
      refine ⟨_,rfl,fun u => ?_⟩
      rw [hsnoc]
      refine (hinsert u).trans ?_
      split
      · rename_i hu
        rw [← hu,hf]
        simp only [if_neg hlt]
        rfl
      · exact h u

theorem foldlM_holds (done es : List Entry) (best : Best) (hd : Distinct (done ++ es))
    (hs : UniqueSequences (done ++ es)) (h : Holds done best) :
    ∃ best', es.foldlM visit best = .ok best' ∧ Holds (done ++ es) best' := by
  induction es generalizing done best with
  | nil => exact ⟨best,rfl,by simpa using h⟩
  | cons e es ih =>
    have happ : done ++ e :: es = (done ++ [e]) ++ es := by simp
    rw [happ] at hd hs ⊢
    have hsub : (done ++ [e]).Sublist ((done ++ [e]) ++ es) := List.sublist_append_left _ _
    obtain ⟨best',hv,h'⟩ := visit_holds (hd.sublist hsub) (hs.sublist hsub) h
    obtain ⟨best'',hf,h''⟩ := ih (done ++ [e]) best' hd hs h'
    exact ⟨best'',by simp only [List.foldlM_cons,hv,ok_bind,hf],h''⟩

theorem foldlM_flatten (ls : List (List Entry)) (best : Best) :
    ls.foldlM (fun best source => source.foldlM visit best) best =
      ls.flatten.foldlM visit best := by
  induction ls generalizing best with
  | nil => rfl
  | cons l ls ih =>
    simp only [List.foldlM_cons,List.flatten_cons,List.foldlM_append,ih]

def stripped (e : Entry) : Bytes × Bytes := (userKey e.1,e.2)

theorem eq_of_increasing {xs ys : List (Bytes × Bytes)}
    (hx : xs.Pairwise (fun a b => compare a.1 b.1 = .lt))
    (hy : ys.Pairwise (fun a b => compare a.1 b.1 = .lt)) (hm : ∀ p, p ∈ xs ↔ p ∈ ys) :
    xs = ys := by
  have hnodup : ∀ {l : List (Bytes × Bytes)}, l.Pairwise (fun a b => compare a.1 b.1 = .lt) →
      l.Nodup := by
    intro l hl
    refine hl.imp (fun {a b} hab heq => ?_)
    have hself : compare b.1 b.1 = .eq := Std.ReflCmp.compare_self
    rw [heq,hself] at hab
    contradiction
  refine List.Perm.eq_of_pairwise (fun a b _ _ hab hba => ?_) hx hy
    ((List.perm_ext_iff_of_nodup (hnodup hx) (hnodup hy)).mpr hm)
  rw [compareBytes_swap a.1 b.1,hab] at hba
  contradiction

theorem stripped_increasing {es : List Entry} (h : Ordered es)
    (hu : (es.map (fun e => userKey e.1)).Nodup) :
    (es.map stripped).Pairwise (fun a b => compare a.1 b.1 = .lt) := by
  refine List.pairwise_map.mpr ((h.sorted.and (List.pairwise_map.mp hu)).imp ?_)
  intro a b hh
  obtain ⟨hab,hne⟩ := hh
  have hle := compare_user_of_le (show compareKeys a.1 b.1 ≠ .gt by rw [hab]; decide)
  cases hc : compare (userKey a.1) (userKey b.1) with
  | lt => exact hc
  | eq => exact absurd (Std.LawfulEqOrd.eq_of_compare hc) hne
  | gt => exact absurd hc hle

/-- The fold arrives at what the strategy keeps of the sorted entries. -/
theorem naiveCompact_eq {ls : List (List Entry)} (hw : ∀ e ∈ ls.flatten, WellFormed e.1)
    (hs : UniqueSequences ls.flatten) :
    naiveCompact ls = .ok ((bottommostKept (mergedEntries ls)).map stripped) := by
  have hd : Distinct ls.flatten := ⟨hw,hs.nodup⟩
  have hp := mergedEntries_perm ls
  have hdm := hd.perm hp.symm
  obtain ⟨best,hf,h⟩ := foldlM_holds [] ls.flatten ∅ hd hs
    (fun u => by simp [findVersion])
  simp only [naiveCompact,foldlM_flatten,hf,ok_bind,pure_eq_ok,Except.ok.injEq]
  have hsub : (bottommostKept (mergedEntries ls)).Sublist (mergedEntries ls) :=
    List.filter_sublist
  refine eq_of_increasing ?_ (stripped_increasing ((mergedEntries_ordered hd).sublist hsub)
    (bottommostKept_userKeys hdm)) ?_
  · exact List.pairwise_map.mpr ((Std.TreeMap.ordered_keys_toList (t:=best)).filter _)
  · intro hh
    obtain ⟨u,v⟩ := hh
    have hmap : (u,v) ∈ (best.toList.filter (fun p => !p.2.2.2)).map (fun p => (p.1,p.2.2.1)) ↔
        ∃ n, best[u]? = some (n,v,false) := by
      simp only [List.mem_map,List.mem_filter,Prod.mk.injEq,Prod.exists,
        Std.TreeMap.mem_toList_iff_getElem?_eq_some,Bool.not_eq_true']
      constructor
      · intro hh
        obtain ⟨_,n,_,_,⟨hb,rfl⟩,rfl,rfl⟩ := hh
        exact ⟨n,hb⟩
      · intro hh
        obtain ⟨n,hb⟩ := hh
        exact ⟨u,n,v,false,⟨hb,rfl⟩,rfl,rfl⟩
    rw [hmap,h u,List.nil_append,← findVersion_perm hdm hp]
    simp only [Option.map_eq_some_iff,findVersion_some hdm,recordOf,Prod.mk.injEq,List.mem_map,
      stripped,mem_bottommostKept]
    constructor
    · intro hh
      obtain ⟨n,e,⟨he,hu,hn⟩,-,hv,ht⟩ := hh
      exact ⟨e,⟨he,hn,ht⟩,hu,hv⟩
    · intro hh
      obtain ⟨e,⟨he,hn,ht⟩,hu,hv⟩ := hh
      exact ⟨sequence e.1,e,⟨he,hu,hn⟩,rfl,hv,ht⟩

end Oracle

open Oracle

theorem written_stripped (opts : SstBuilderOptions) (es : List Entry) :
    (written opts es).map stripped = es.map stripped := by
  rw [written_eq_map,List.map_map]
  refine List.map_congr_left (fun e _ => ?_)
  simp only [Function.comp,stripped,(writtenEntry_key opts e).1,writtenEntry_snd]

/-- The compaction agrees with the reference implementation, if and only if what is left
makes fewer than 2^32 data blocks. -/
theorem compact_naiveCompact_iff (X : Crates) (opts : CompactionOptions) (ls : List (List Entry))
    (hcap : ∀ l ∈ ls, totalBytes l < 2^32) (hsort : ∀ l ∈ ls, SortedEntries l)
    (hwf : ∀ e ∈ ls.flatten, WellFormed e.1) (hseq : UniqueSequences ls.flatten) :
    ∃ bytes expected, compact X (ls.map ArenaSource.ofEntries) opts = .ok bytes ∧
      naiveCompact ls = .ok expected ∧
      ∀ reader : FileReader, reader.contents = bytes →
        ((∃ out, decodeSst X reader = .ok out ∧ out.map stripped = expected) ↔
          dataBlockCount (written opts.sstBuilder (bottommostKept (mergedEntries ls))) <
            2^32) := by
  have h : Inputs (ls.map ArenaSource.ofEntries) ls := Inputs.ofLists hcap hsort hwf hseq.nodup
  obtain ⟨bytes,hc,hread⟩ := h.compact_fileOf X opts
  refine ⟨bytes,_,hc,naiveCompact_eq hwf hseq,fun reader hr => ?_⟩
  rw [(hread reader hr).iff]
  exact and_iff_left (written_stripped _ _)

theorem compact_naiveCompact_two :
    ∃ bytes expected,
      compact .idle (twoVersions.map ArenaSource.ofEntries) ⟨plainOptions⟩ = .ok bytes ∧
      naiveCompact twoVersions = .ok expected ∧
      ∀ reader : FileReader, reader.contents = bytes →
        ((∃ out, decodeSst .idle reader = .ok out ∧ out.map stripped = expected) ↔
          dataBlockCount (written plainOptions (bottommostKept (mergedEntries twoVersions))) <
            2^32) :=
  compact_naiveCompact_iff .idle ⟨plainOptions⟩ twoVersions (by decide) (by decide) (by decide)
    (by decide)

theorem manyKeys_uniqueSequences : UniqueSequences manyKeys.flatten :=
  (List.pairwise_map.mp manyKeys_userKeys).imp (fun hne heq => absurd heq hne)

theorem compact_naiveCompact_manyKeys :
    (∀ l ∈ manyKeys, totalBytes l < 2^32) ∧ (∀ l ∈ manyKeys, SortedEntries l) ∧
    (∀ e ∈ manyKeys.flatten, WellFormed e.1) ∧ UniqueSequences manyKeys.flatten ∧
    ¬ ∃ bytes expected,
      compact .idle (manyKeys.map ArenaSource.ofEntries) ⟨plainOptions⟩ = .ok bytes ∧
      naiveCompact manyKeys = .ok expected ∧
      ∀ reader : FileReader, reader.contents = bytes →
        ∃ out, decodeSst .idle reader = .ok out ∧ out.map stripped = expected := by
  refine ⟨manyKeys_small,manyKeys_inputs.sorted,manyKeys_inputs.distinct.wf,
    manyKeys_uniqueSequences,?_⟩
  intro hh
  obtain ⟨bytes,expected,hc,-,hread⟩ := hh
  obtain ⟨reader,e,hbytes,he⟩ := manyKeys_compact_unreadable plainOptions (by decide)
  rw [hc,Except.ok.injEq] at hbytes
  obtain ⟨out,hd,-⟩ := hread reader hbytes.symm
  rw [he] at hd
  contradiction

end SstCompactor
