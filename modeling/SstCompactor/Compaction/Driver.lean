import SstCompactor.Compaction.Strategy
import SstCompactor.Compaction.Versions
import SstCompactor.Compaction.Load
import SstCompactor.Merge.Order

set_option autoImplicit false

namespace SstCompactor
open FixedWidth

structure CompactionOptions where
  sstBuilder : SstBuilderOptions := {}

structure DriverState (σ : Type) where
  strategy : σ
  output : List Entry
  lastUserKey : Bytes
  hasLastUserKey : Bool

section
variable {σ : Type} [CompactionStrategy σ]

def onEntry (st : DriverState σ) (e : Entry) : DriverState σ :=
  match split e.1 with
  | .error _ => st
  | .ok ik =>
    let isFirstForKey := !st.hasLastUserKey || st.lastUserKey != ik.userKey
    let (decision,strategy) := CompactionStrategy.decide st.strategy ik isFirstForKey
    match decision with
    | .drop => ⟨strategy,st.output,ik.userKey,true⟩
    | .keep => ⟨strategy,st.output ++ [e],ik.userKey,true⟩

variable (X : Crates)

/-- Every entry of every source is visited once, so their number bounds the loop of `run`. -/
def runFuel (sources : List ArenaSource) : Nat := (sources.map ArenaSource.len).sum+1

def compactWithStrategy (sources : List ArenaSource) (opts : CompactionOptions) (strategy : σ) :
    Exec (Bytes × σ) := do
  let merger ← LoserTreeMerger.new internalKeyComparator sources
  let (visited,_) ← LoserTreeMerger.run internalKeyComparator (runFuel sources) merger
  let st := visited.foldl onEntry ⟨strategy,[],[],false⟩
  let bytes ← buildSst X opts.sstBuilder st.output
  pure (bytes,st.strategy)

def compact (sources : List ArenaSource) (opts : CompactionOptions) : Exec Bytes := do
  let (bytes,_) ← compactWithStrategy X sources opts BottommostStrategy.mk
  pure bytes

end

theorem yields_length_le {s : ArenaSource} {es : List Entry} (h : Yields s es) :
    es.length ≤ s.len := by
  induction h with
  | nil _ => exact Nat.zero_le _
  | @cons s e es hp _ ih =>
    have hlt : s.pos < s.stop := by
      by_contra hge
      have hn : s.pos ≥ s.stop := Nat.not_lt.mp hge
      simp [MergeSource.peek,hn] at hp
    simp only [ArenaSource.len,MergeSource.advance,List.length_cons] at ih ⊢
    omega

theorem runFuel_enough {sources : List ArenaSource} {ls : List (List Entry)}
    (h : List.Forall₂ Yields sources ls) : ls.flatten.length < runFuel sources := by
  induction h with
  | nil => decide
  | cons hy _ ih =>
    have hle := yields_length_le hy
    simp only [runFuel,List.flatten_cons,List.length_append,List.map_cons,List.sum_cons] at ih ⊢
    omega

/-- Sources whose entries are sorted, with well-formed keys, no key twice among them. -/
structure Inputs (sources : List ArenaSource) (ls : List (List Entry)) : Prop where
  yields : List.Forall₂ Yields sources ls
  sorted : ∀ l ∈ ls, SortedEntries l
  distinct : Distinct ls.flatten

def mergedEntries (ls : List (List Entry)) : List Entry :=
  ls.flatten.mergeSort (fun a b => compareKeys a.1 b.1 != .gt)

theorem mergedEntries_perm (ls : List (List Entry)) : (mergedEntries ls).Perm ls.flatten :=
  List.mergeSort_perm _ _

theorem mergedEntries_sorted (ls : List (List Entry)) : SortedEntries (mergedEntries ls) := by
  have h := List.pairwise_mergeSort
    (fun (a b c : Entry) (hab : compareKeys a.1 b.1 != .gt) hbc => by
      simp only [bne_iff_ne] at hab hbc ⊢
      exact compareKeys_trans hab hbc)
    (fun a b => by
      rw [compareKeys_swap b.1 a.1]
      cases compareKeys b.1 a.1 <;> rfl) ls.flatten
  exact h.imp (fun hab => by simpa using hab)

theorem sorted_unique {es fs : List Entry} (hd : Distinct es) (hp : es.Perm fs)
    (he : SortedEntries es) (hf : SortedEntries fs) : es = fs := by
  refine List.Perm.eq_of_pairwise (fun a b ha hb hab hba => ?_) he hf hp
  have hk : compareKeys a.1 b.1 = .eq := by
    rw [compareKeys_swap a.1 b.1] at hba
    cases hc : compareKeys a.1 b.1 <;> simp_all
  have hb' := hp.mem_iff.mpr hb
  exact List.inj_on_of_nodup_map hd.nodup ha hb'
    ((compareKeys_eq_iff (hd.wf a ha) (hd.wf b hb')).mp hk)

theorem mergedEntries_ordered {ls : List (List Entry)} (h : Distinct ls.flatten) :
    Ordered (mergedEntries ls) := by
  have hd := h.perm (mergedEntries_perm ls).symm
  refine ⟨hd.wf,?_⟩
  have hn := List.pairwise_map.mp hd.nodup
  refine List.Pairwise.imp_of_mem ?_ ((mergedEntries_sorted ls).and hn)
  intro a b ha hb hh
  obtain ⟨hab,hne⟩ := hh
  cases hc : compareKeys a.1 b.1 with
  | lt => rfl
  | gt => exact absurd hc hab
  | eq => exact absurd ((compareKeys_eq_iff (hd.wf a ha) (hd.wf b hb)).mp hc) hne

theorem keysIn_of_flatten {ls : List (List Entry)} (h : ∀ e ∈ ls.flatten, WellFormed e.1) :
    KeysIn WellFormed ls :=
  fun l hl e he => h e (List.mem_flatten.mpr ⟨l,hl,he⟩)

/-- Without a repeated key the tie rule of the merger does not matter. -/
theorem mergeOrder_eq {ls : List (List Entry)} (hd : Distinct ls.flatten)
    (hs : ∀ l ∈ ls, SortedEntries l) : mergeOrder ls = mergedEntries ls :=
  sorted_unique (hd.perm (mergeOrder_perm ls).symm)
    ((mergeOrder_perm ls).trans (mergedEntries_perm ls).symm)
    (mergeOrder_sorted hs) (mergedEntries_sorted ls)

theorem Inputs.merge {sources : List ArenaSource} {ls : List (List Entry)}
    (h : Inputs sources ls) : ∃ m m',
      LoserTreeMerger.new internalKeyComparator sources = .ok m ∧
      LoserTreeMerger.run internalKeyComparator (runFuel sources) m =
        .ok (mergedEntries ls,m') := by
  obtain ⟨m,m',hnew,hrun⟩ := merge_order h.yields
    (neverStuck_of_wellFormed (keysIn_of_flatten h.distinct.wf))
  rw [← mergeOrder_eq h.distinct h.sorted]
  exact ⟨m,m',hnew,hrun _ (runFuel_enough h.yields)⟩

section
variable {σ : Type} [CompactionStrategy σ]

def strategyCalls (last : Option Bytes) : List Entry → List (InternalKey × Bool)
  | [] => []
  | e :: es =>
    (internalKeyOf e.1,decide (last ≠ some (userKey e.1))) ::
      strategyCalls (some (userKey e.1)) es

def keptEntries (es : List Entry) (decisions : List KeepDecision) : List Entry :=
  ((es.zip decisions).filter (fun p => p.2 == .keep)).map Prod.fst

theorem foldl_onEntry (es : List Entry) (hwf : ∀ e ∈ es, WellFormed e.1) (st : DriverState σ)
    (last : Option Bytes) (hl : last = if st.hasLastUserKey then some st.lastUserKey else none) :
    (es.foldl onEntry st).strategy = (decideAll st.strategy (strategyCalls last es)).2 ∧
      (es.foldl onEntry st).output = st.output ++
        keptEntries es (decideAll st.strategy (strategyCalls last es)).1 := by
  induction es generalizing st last with
  | nil => simp [strategyCalls,decideAll,keptEntries]
  | cons e es ih =>
    have hsplit := split_ok (hwf e (by simp))
    have hflag : (!st.hasLastUserKey || st.lastUserKey != (internalKeyOf e.1).userKey) =
        decide (last ≠ some (userKey e.1)) := by
      rw [hl]
      cases st.hasLastUserKey with
      | false => simp
      | true => by_cases hk : st.lastUserKey = userKey e.1 <;> simp [internalKeyOf,hk]
    cases hd : CompactionStrategy.decide st.strategy (internalKeyOf e.1)
        (decide (last ≠ some (userKey e.1))) with
    | mk d s =>
      have hih := fun out => ih (fun x hx => hwf x (by simp [hx]))
        ⟨s,out,userKey e.1,true⟩ (some (userKey e.1)) rfl
      cases d with
      | drop =>
        have hstep : onEntry st e = ⟨s,st.output,userKey e.1,true⟩ := by
          simp only [onEntry,hsplit,hflag,hd]
          rfl
        obtain ⟨h₁,h₂⟩ := hih st.output
        simp only [List.foldl_cons,hstep,strategyCalls,decideAll,hd,h₁,h₂]
        exact ⟨trivial,by simp [keptEntries]⟩
      | keep =>
        have hstep : onEntry st e = ⟨s,st.output ++ [e],userKey e.1,true⟩ := by
          simp only [onEntry,hsplit,hflag,hd]
          rfl
        obtain ⟨h₁,h₂⟩ := hih (st.output ++ [e])
        simp only [List.foldl_cons,hstep,strategyCalls,decideAll,hd,h₁,h₂]
        exact ⟨trivial,by simp [keptEntries]⟩

/-- In an ordered list an entry that follows one of another user key, or none, is the newest
version of its own. -/
theorem first_iff_newest {pre es : List Entry} {e : Entry} (h : Ordered (pre ++ e :: es)) :
    decide (pre.getLast?.map (fun p => userKey p.1) ≠ some (userKey e.1)) =
      newestWhere always (pre ++ e :: es) e := by
  have hpre := fun x hx => (List.pairwise_append.mp h.sorted).2.2 x hx e (by simp)
  have hpost := (List.pairwise_cons.mp (List.pairwise_append.mp h.sorted).2.1).1
  rw [Bool.eq_iff_iff,decide_eq_true_iff,newestWhere_iff]
  constructor
  · intro hlast
    refine ⟨rfl,fun x hx hu _ => ?_⟩
    rcases List.mem_append.mp hx with hx | hx
    · -- Between two versions of a key stands no other key.
      exfalso
      apply hlast
      have hne : pre ≠ [] := List.ne_nil_of_mem hx
      have hsplit := List.dropLast_append_getLast hne
      generalize pre.getLast hne = p at hsplit
      rw [← hsplit,List.getLast?_concat,Option.map_some,Option.some.injEq]
      have hpe := hpre p (by rw [← hsplit]; simp)
      rw [← hsplit] at hx
      rcases List.mem_append.mp hx with hxd | hxp
      · have hs := (List.pairwise_append.mp h.sorted).1
        rw [← hsplit] at hs
        exact userKey_between ((List.pairwise_append.mp hs).2.2 x hxd p (by simp)) hpe hu
      · rwa [List.mem_singleton.mp hxp] at hu
    · rcases List.mem_cons.mp hx with rfl | hx
      · exact Nat.le_refl _
      · exact Nat.le_of_lt (packed_lt_of_lt hu.symm (hpost x hx))
  · rintro ⟨-,hn⟩ hlast
    obtain ⟨p,hp,hu⟩ := Option.map_eq_some_iff.mp hlast
    have hmem := List.mem_of_getLast? hp
    have hle := hn p (by simp [hmem]) hu rfl
    have hlt := packed_lt_of_lt hu (hpre p hmem)
    omega

theorem strategyCalls_newest (pre es : List Entry) (h : Ordered (pre ++ es)) :
    strategyCalls (pre.getLast?.map (fun p => userKey p.1)) es =
      es.map (fun e => (internalKeyOf e.1,newestWhere always (pre ++ es) e)) := by
  induction es generalizing pre with
  | nil => rfl
  | cons e es ih =>
    have happ : pre ++ e :: es = (pre ++ [e]) ++ es := by simp
    have hrest := ih (pre ++ [e]) (by rw [← happ]; exact h)
    rw [List.getLast?_concat,Option.map_some,← happ] at hrest
    rw [strategyCalls,hrest,first_iff_newest h,List.map_cons]

/-- The calls for a list of entries: each once, in order, marked when it is the newest
version of its user key. -/
def expectedCalls (es : List Entry) : List (InternalKey × Bool) :=
  es.map (fun e => (internalKeyOf e.1,newestWhere always es e))

def keptBy (s : σ) (es : List Entry) : List Entry :=
  keptEntries es (decideAll s (expectedCalls es)).1

/-- The driver is a fold of the strategy over the merged entries. -/
theorem Inputs.compactWithStrategy_eq {sources : List ArenaSource} {ls : List (List Entry)}
    (h : Inputs sources ls) (X : Crates) (opts : CompactionOptions) (s : σ) :
    compactWithStrategy X sources opts s = (do
      let bytes ← buildSst X opts.sstBuilder (keptBy s (mergedEntries ls))
      pure (bytes,(decideAll s (expectedCalls (mergedEntries ls))).2)) := by
  have hord := mergedEntries_ordered h.distinct
  have hcalls := strategyCalls_newest [] (mergedEntries ls) hord
  simp only [List.nil_append,List.getLast?_nil,Option.map_none] at hcalls
  obtain ⟨m,m',hnew,hrun⟩ := h.merge
  obtain ⟨hs,ho⟩ := foldl_onEntry (mergedEntries ls) hord.wf
    (⟨s,[],[],false⟩ : DriverState σ) none rfl
  rw [hcalls] at hs ho
  simp only [List.nil_append] at ho
  simp only [compactWithStrategy,hnew,hrun,ok_bind,hs,ho]
  rfl

theorem keptEntries_sublist (es : List Entry) (decisions : List KeepDecision) :
    (keptEntries es decisions).Sublist es := by
  induction es generalizing decisions with
  | nil => simp [keptEntries]
  | cons e es ih =>
    cases decisions with
    | nil => simp [keptEntries]
    | cons d ds =>
      have h := ih ds
      cases d with
      | keep => simpa [keptEntries] using h
      | drop => exact h.cons e

theorem yields_fit {sources : List ArenaSource} {ls : List (List Entry)}
    (hy : List.Forall₂ Yields sources ls) : ∀ e ∈ ls.flatten, Fits e := by
  intro e he
  obtain ⟨l,hl,hel⟩ := List.mem_flatten.mp he
  obtain ⟨i,hi,rfl⟩ := List.getElem_of_mem hl
  have hi' : i < sources.length := by rw [hy.length_eq]; exact hi
  exact Yields.lengths (hy.get hi' hi) e hel

theorem Inputs.fits {sources : List ArenaSource} {ls : List (List Entry)}
    (h : Inputs sources ls) : ∀ e ∈ mergedEntries ls, Fits e :=
  fun e he => yields_fit h.yields e ((mergedEntries_perm ls).subset he)

theorem Inputs.compactWithStrategy_fileOf {sources : List ArenaSource}
    {ls : List (List Entry)} (h : Inputs sources ls) (X : Crates) (opts : CompactionOptions)
    (s : σ) : ∃ bytes,
      compactWithStrategy X sources opts s =
        .ok (bytes,(decideAll s (expectedCalls (mergedEntries ls))).2) ∧
      FileOf X bytes (written opts.sstBuilder (keptBy s (mergedEntries ls))) := by
  have hsub := keptEntries_sublist (mergedEntries ls)
    (decideAll s (expectedCalls (mergedEntries ls))).1
  have hord := (mergedEntries_ordered h.distinct).sublist hsub
  have hw := writtenEntries_ok opts.sstBuilder hord.wf
  obtain ⟨bytes,hb,hread⟩ := buildSst_fileOf X opts.sstBuilder hw
    (written_fits opts.sstBuilder hord.wf (fun e he => h.fits e (hsub.subset he)))
  refine ⟨bytes,?_,hread⟩
  rw [h.compactWithStrategy_eq X opts s,keptBy,hb]
  rfl

/-- A strategy that decides on every entry as `P` does keeps what passes `P`. The invariant
relates the strategy's state to the entries it was asked about. -/
theorem keptBy_filter {es : List Entry} (P : Entry → Bool) (Inv : List Entry → σ → Prop) {s : σ}
    (h₀ : Inv [] s)
    (hstep : ∀ pre e post st, es = pre ++ e :: post → Inv pre st →
      ((CompactionStrategy.decide st (internalKeyOf e.1) (newestWhere always es e)).1 = .keep ↔
        P e = true) ∧
      Inv (pre ++ [e])
        (CompactionStrategy.decide st (internalKeyOf e.1) (newestWhere always es e)).2) :
    keptBy s es = es.filter P := by
  have hsuffix : ∀ (rest pre : List Entry) (st : σ), es = pre ++ rest → Inv pre st →
      keptEntries rest (decideAll st
        (rest.map (fun e => (internalKeyOf e.1,newestWhere always es e)))).1 =
        rest.filter P := by
    intro rest
    induction rest with
    | nil => intros; rfl
    | cons e rest ih =>
      intro pre st hes hinv
      obtain ⟨hd,hnext⟩ := hstep pre e rest st hes hinv
      have hrest := ih (pre ++ [e]) _ (by simp [hes]) hnext
      cases hk : (CompactionStrategy.decide st (internalKeyOf e.1)
          (newestWhere always es e)).1 with
      | keep =>
        have hp := hd.mp hk
        simp only [List.map_cons,decideAll,keptEntries,List.zip_cons_cons,hk,beq_self_eq_true,
          List.filter_cons_of_pos,hp]
        rw [← hrest]
        rfl
      | drop =>
        have hp : ¬ P e = true := fun hp => by rw [hd.mpr hp] at hk; contradiction
        rw [List.filter_cons_of_neg hp,← hrest]
        simp only [List.map_cons,decideAll,keptEntries,List.zip_cons_cons,hk]
        rfl
  exact hsuffix es [] s rfl h₀

/-- Whatever the strategy: it is asked once about each entry, in key order, with the flag set
on the newest version of each user key, and the file holds the entries it kept, unchanged, if
and only if they make fewer than 2^32 data blocks. For a strategy that records its calls the
final state is the list of calls. -/
theorem compactWithStrategy_iff (X : Crates) (opts : CompactionOptions)
    (hext : opts.sstBuilder.externalSstGlobalSeqno = none) (sources : List ArenaSource)
    (ls : List (List Entry)) (h : Inputs sources ls) (s : σ) :
    ∃ bytes s', compactWithStrategy X sources opts s = .ok (bytes,s') ∧
      s' = (decideAll s (expectedCalls (mergedEntries ls))).2 ∧
      ∀ reader : FileReader, reader.contents = bytes →
        ((s' = (decideAll s (expectedCalls (mergedEntries ls))).2 ∧
          ∃ out, decodeSst X reader = .ok out ∧ out = keptBy s (mergedEntries ls)) ↔
          dataBlockCount (keptBy s (mergedEntries ls)) < 2^32) := by
  obtain ⟨bytes,hc,hread⟩ := h.compactWithStrategy_fileOf X opts s
  rw [written_none _ hext] at hread
  refine ⟨bytes,_,hc,rfl,fun reader hr => ?_⟩
  rw [(hread reader hr).iff]
  simp

end

theorem keptBy_passthrough (es : List Entry) : keptBy PassthroughStrategy.mk es = es := by
  rw [keptBy_filter (fun _ => true) (fun _ _ => True) trivial
    (fun pre e post st _ _ => ⟨by simp [CompactionStrategy.decide],trivial⟩)]
  simp

theorem ofEntries_all_yield {ls : List (List Entry)} (hc : ∀ l ∈ ls, totalBytes l < 2^32) :
    List.Forall₂ Yields (ls.map ArenaSource.ofEntries) ls := by
  rw [List.forall₂_map_left_iff,List.forall₂_same]
  exact fun l hl => ofEntries_yields (hc l hl)

theorem Inputs.ofLists {ls : List (List Entry)} (hc : ∀ l ∈ ls, totalBytes l < 2^32)
    (hs : ∀ l ∈ ls, SortedEntries l) (hw : ∀ e ∈ ls.flatten, WellFormed e.1)
    (hn : (ls.flatten.map Prod.fst).Nodup) : Inputs (ls.map ArenaSource.ofEntries) ls :=
  ⟨ofEntries_all_yield hc,hs,hw,hn⟩

def twoVersions : List (List Entry) :=
  [[([7] ++ leBytes 8 0x201,[1])],[([7] ++ leBytes 8 0x101,[2])]]

theorem twoVersions_inputs : Inputs (twoVersions.map .ofEntries) twoVersions :=
  Inputs.ofLists (by decide) (by decide) (by decide) (by decide)

theorem compactWithStrategy_two : ∃ bytes s',
    compactWithStrategy .idle (twoVersions.map .ofEntries) ⟨plainOptions⟩
      BottommostStrategy.mk = .ok (bytes,s') ∧
    s' = (decideAll BottommostStrategy.mk (expectedCalls (mergedEntries twoVersions))).2 ∧
    ∀ reader : FileReader, reader.contents = bytes →
      ((s' = (decideAll BottommostStrategy.mk (expectedCalls (mergedEntries twoVersions))).2 ∧
        ∃ out, decodeSst .idle reader = .ok out ∧
          out = keptBy BottommostStrategy.mk (mergedEntries twoVersions)) ↔
        dataBlockCount (keptBy BottommostStrategy.mk (mergedEntries twoVersions)) < 2^32) :=
  compactWithStrategy_iff .idle ⟨plainOptions⟩ rfl _ _ twoVersions_inputs _

theorem totalBytes_perm {es fs : List Entry} (h : es.Perm fs) :
    totalBytes es = totalBytes fs := by
  rw [totalBytes,totalBytes]
  exact (h.map _).sum_eq

theorem totalBytes_sublist {es fs : List Entry} (h : fs.Sublist es) :
    totalBytes fs ≤ totalBytes es :=
  (h.map _).sum_le_sum (fun _ _ => Nat.zero_le _)

theorem Inputs.opens_with {σ : Type} [CompactionStrategy σ] {sources : List ArenaSource}
    {ls : List (List Entry)} (h : Inputs sources ls) (opts : SstBuilderOptions)
    (ho : (strBytes opts.comparatorName).length+(strBytes opts.columnFamilyName).length < 2^50)
    (s : σ) (hn : ls.flatten.length < 2^50) (hb : totalBytes ls.flatten < 2^60) :
    ∃ (reader : FileReader) (s' : σ),
      compactWithStrategy .idle sources ⟨opts⟩ s = .ok (reader.contents,s') ∧
      ReadsBack (dataBlockCount (written opts (keptBy s (mergedEntries ls))))
        (decodeSst .idle reader) (written opts (keptBy s (mergedEntries ls))) := by
  have hp := mergedEntries_perm ls
  have hsub : (keptBy s (mergedEntries ls)).Sublist (mergedEntries ls) :=
    keptEntries_sublist _ _
  have hlen := hsub.length_le
  have hbytes := totalBytes_sublist hsub
  have htotal := totalBytes_perm hp
  have hw := (mergedEntries_ordered h.distinct).wf
  rw [hp.length_eq] at hlen
  obtain ⟨reader,hreader⟩ := smallOptions_opens opts (fun e he => hw e (hsub.subset he))
    (Nat.lt_of_le_of_lt hlen hn) (by omega) ho
  obtain ⟨bytes,hc,hread⟩ := h.compactWithStrategy_fileOf .idle ⟨opts⟩ s
  have heq := h.compactWithStrategy_eq .idle ⟨opts⟩ s
  rw [hreader,hc,ok_bind,pure_eq_ok,Except.ok.injEq,Prod.mk.injEq] at heq
  exact ⟨reader,_,by rw [hc,heq.1],hread reader heq.1.symm⟩

theorem Inputs.opens {σ : Type} [CompactionStrategy σ] {sources : List ArenaSource}
    {ls : List (List Entry)} (h : Inputs sources ls) (s : σ) (hn : ls.flatten.length < 2^50)
    (hb : totalBytes ls.flatten < 2^60) : ∃ (reader : FileReader) (s' : σ),
      compactWithStrategy .idle sources ⟨plainOptions⟩ s = .ok (reader.contents,s') ∧
      ReadsBack (dataBlockCount (keptBy s (mergedEntries ls))) (decodeSst .idle reader)
        (keptBy s (mergedEntries ls)) := by
  have hopen := h.opens_with plainOptions (by decide) s hn hb
  rwa [written_none _ rfl] at hopen

def manyKey (i : Nat) : Entry := (leBytes 8 i ++ leBytes 8 0x101,[])

@[irreducible] def manyKeys : List (List Entry) :=
  (List.range (1366*2^32)).map (fun i => [manyKey i])

theorem manyKeys_flatten : manyKeys.flatten = (List.range (1366*2^32)).map manyKey := by
  unfold manyKeys
  generalize List.range (1366*2^32) = is
  induction is with
  | nil => rfl
  | cons i is ih => simp [ih]

theorem manyKey_userKey (i : Nat) : userKey (manyKey i).1 = leBytes 8 i :=
  userKey_append _ _ (by simp)

theorem manyKeys_userKeys : (manyKeys.flatten.map (fun e => userKey e.1)).Nodup := by
  rw [manyKeys_flatten,List.map_map]
  refine List.Nodup.map_on (fun a ha b hb hab => ?_) List.nodup_range
  simp only [Function.comp,manyKey_userKey] at hab
  have ha := List.mem_range.mp ha
  have hb := List.mem_range.mp hb
  exact leBytes_inj (by omega) (by omega) hab

theorem mem_manyKeys {l : List Entry} (hl : l ∈ manyKeys) : ∃ i, l = [manyKey i] := by
  unfold manyKeys at hl
  obtain ⟨i,-,rfl⟩ := List.mem_map.mp hl
  exact ⟨i,rfl⟩

theorem manyKeys_small : ∀ l ∈ manyKeys, totalBytes l < 2^32 := by
  intro l hl
  obtain ⟨i,rfl⟩ := mem_manyKeys hl
  simp [totalBytes,manyKey]

theorem manyKeys_inputs : Inputs (manyKeys.map ArenaSource.ofEntries) manyKeys := by
  refine Inputs.ofLists manyKeys_small (fun l hl => ?_) (fun e he => ?_) ?_
  · obtain ⟨i,rfl⟩ := mem_manyKeys hl
    exact List.pairwise_singleton _ _
  · obtain ⟨l,hl,hel⟩ := List.mem_flatten.mp he
    obtain ⟨i,rfl⟩ := mem_manyKeys hl
    rw [List.mem_singleton.mp hel]
    simp [WellFormed,manyKey]
  · exact List.Nodup.of_map userKey (by rw [List.map_map]; exact manyKeys_userKeys)

theorem manyKeys_length : manyKeys.flatten.length = 1366*2^32 := by
  rw [manyKeys_flatten,List.length_map,List.length_range]

theorem manyKeys_totalBytes : totalBytes manyKeys.flatten ≤ 1366*2^32*16 := by
  rw [← manyKeys_length]
  refine totalBytes_le (fun e he => ?_)
  rw [manyKeys_flatten] at he
  obtain ⟨i,-,rfl⟩ := List.mem_map.mp he
  simp [manyKey]

theorem manyKeys_unreadable (opts : SstBuilderOptions)
    (ho : (strBytes opts.comparatorName).length+(strBytes opts.columnFamilyName).length < 2^50)
    {σ : Type} [CompactionStrategy σ] {s : σ}
    (hs : keptBy s (mergedEntries manyKeys) = mergedEntries manyKeys) :
    ∃ (reader : FileReader) (s' : σ) (e : Fault),
      compactWithStrategy .idle (manyKeys.map ArenaSource.ofEntries) ⟨opts⟩ s =
        .ok (reader.contents,s') ∧
      decodeSst .idle reader = .error e := by
  have hlen := manyKeys_length
  obtain ⟨reader,s',hc,hread⟩ := manyKeys_inputs.opens_with opts ho s (by omega)
    (by have := manyKeys_totalBytes; omega)
  rw [hs] at hread
  have hcount := length_le_dataBlockCount (written opts (mergedEntries manyKeys))
  rw [written_eq_map,List.length_map,(mergedEntries_perm manyKeys).length_eq,
    ← written_eq_map] at hcount
  obtain ⟨e,he⟩ := hread.high (by omega)
  exact ⟨reader,s',e,hc,he⟩

theorem compactWithStrategy_manyKeys :
    plainOptions.externalSstGlobalSeqno = none ∧
    Inputs (manyKeys.map ArenaSource.ofEntries) manyKeys ∧
    ¬ ∃ bytes s', compactWithStrategy .idle (manyKeys.map ArenaSource.ofEntries) ⟨plainOptions⟩
        PassthroughStrategy.mk = .ok (bytes,s') ∧
      ∀ reader : FileReader, reader.contents = bytes →
        s' = (decideAll PassthroughStrategy.mk (expectedCalls (mergedEntries manyKeys))).2 ∧
          ∃ out, decodeSst .idle reader = .ok out ∧
            out = keptBy PassthroughStrategy.mk (mergedEntries manyKeys) := by
  refine ⟨rfl,manyKeys_inputs,?_⟩
  intro hh
  obtain ⟨bytes,s',hc,hread⟩ := hh
  obtain ⟨reader,s'',e,hc',he⟩ := manyKeys_unreadable plainOptions (by decide)
    (keptBy_passthrough _)
  rw [hc,Except.ok.injEq,Prod.mk.injEq] at hc'
  obtain ⟨-,out,hd,-⟩ := hread reader hc'.1.symm
  rw [he] at hd
  contradiction

end SstCompactor
