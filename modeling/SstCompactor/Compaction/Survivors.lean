import SstCompactor.Compaction.Driver

/-!
Compaction of sources that may hold one internal key more than once, or keys too short to be
one. What the default strategy then leaves is said on the merge order: the first entry of every
run of one user key, unless it is a deletion mark.
-/

set_option autoImplicit false

namespace SstCompactor
open FixedWidth Kway

section
variable {σ : Type} [CompactionStrategy σ]

theorem foldl_onEntry_skips (es : List Entry) (st : DriverState σ) :
    es.foldl onEntry st = (es.filter (fun e => WellFormed e.1)).foldl onEntry st := by
  induction es generalizing st with
  | nil => rfl
  | cons e es ih =>
    by_cases he : WellFormed e.1
    · rw [List.filter_cons_of_pos (by simpa using he),List.foldl_cons,List.foldl_cons,ih]
    · have hlt : e.1.length < numInternalBytes := Nat.not_le.mp he
      have hstep : onEntry st e = st := by simp [onEntry,split,hlt]
      rw [List.filter_cons_of_neg (by simpa using he),List.foldl_cons,hstep,ih]

def sieve (s : σ) (es : List Entry) : List Entry × σ :=
  let calls := decideAll s (strategyCalls none es)
  (keptEntries es calls.1,calls.2)

theorem compactWithStrategy_neverStuck {sources : List ArenaSource} {ls : List (List Entry)}
    (hy : List.Forall₂ Yields sources ls) (hm : NeverStuck ls) (X : Crates)
    (opts : CompactionOptions) (s : σ) :
    compactWithStrategy X sources opts s = (do
      let kept := sieve s ((mergeOrder ls).filter (fun e => WellFormed e.1))
      let bytes ← buildSst X opts.sstBuilder kept.1
      pure (bytes,kept.2)) := by
  obtain ⟨m,m',hnew,hrun⟩ := merge_order hy hm
  obtain ⟨hs,ho⟩ := foldl_onEntry ((mergeOrder ls).filter (fun e => WellFormed e.1))
    (fun e he => by simpa using (List.mem_filter.mp he).2)
    (⟨s,[],[],false⟩ : DriverState σ) none rfl
  rw [← foldl_onEntry_skips] at hs ho
  simp only [compactWithStrategy,hnew,hrun _ (runFuel_enough hy),ok_bind,hs,ho,List.nil_append,
    sieve]

end

/-- Sources whose entries are sorted, with well-formed keys; a key may occur more than once. -/
structure SortedInputs (sources : List ArenaSource) (ls : List (List Entry)) : Prop where
  yields : List.Forall₂ Yields sources ls
  sorted : ∀ l ∈ ls, SortedEntries l
  wf : KeysIn WellFormed ls

theorem SortedInputs.ofLists {ls : List (List Entry)} (hc : ∀ l ∈ ls, totalBytes l < 2^32)
    (hs : ∀ l ∈ ls, SortedEntries l) (hw : KeysIn WellFormed ls) :
    SortedInputs (ls.map ArenaSource.ofEntries) ls :=
  ⟨ofEntries_all_yield hc,hs,hw⟩

theorem Inputs.sortedInputs {sources : List ArenaSource} {ls : List (List Entry)}
    (h : Inputs sources ls) : SortedInputs sources ls :=
  ⟨h.yields,h.sorted,keysIn_of_flatten h.distinct.wf⟩

theorem flatten_wf {ls : List (List Entry)} (h : KeysIn WellFormed ls) :
    ∀ e ∈ ls.flatten, WellFormed e.1 := by
  intro e he
  obtain ⟨l,hl,hel⟩ := List.mem_flatten.mp he
  exact h l hl e hel

theorem mergeOrder_wf {ls : List (List Entry)} (h : KeysIn WellFormed ls) :
    ∀ e ∈ mergeOrder ls, WellFormed e.1 :=
  fun e he => flatten_wf h e ((mergeOrder_perm ls).subset he)

/-- The first entry of each user key, unless it is a deletion mark, after an entry of user key
`last` or at the start. -/
def survivors (last : Option Bytes) : List Entry → List Entry
  | [] => []
  | e :: es =>
    if last ≠ some (userKey e.1) ∧ (valueType e.1).isTombstone = false then
      e :: survivors (some (userKey e.1)) es
    else survivors (some (userKey e.1)) es

theorem keptEntries_bottommost (last : Option Bytes) (es : List Entry) :
    keptEntries es (decideAll BottommostStrategy.mk (strategyCalls last es)).1 =
      survivors last es := by
  induction es generalizing last with
  | nil => rfl
  | cons e es ih =>
    rw [survivors,← ih (some (userKey e.1))]
    by_cases hl : last = some (userKey e.1)
    · simp [strategyCalls,decideAll,CompactionStrategy.decide,keptEntries,hl]
    · cases ht : (valueType e.1).isTombstone <;>
        simp [strategyCalls,decideAll,CompactionStrategy.decide,keptEntries,internalKeyOf,hl,ht]

theorem SortedInputs.compact_eq {sources : List ArenaSource} {ls : List (List Entry)}
    (h : SortedInputs sources ls) (X : Crates) (opts : CompactionOptions) :
    compact X sources opts = buildSst X opts.sstBuilder (survivors none (mergeOrder ls)) := by
  have hall : (mergeOrder ls).filter (fun e => WellFormed e.1) = mergeOrder ls :=
    List.filter_eq_self.mpr (fun e he => by simpa using mergeOrder_wf h.wf e he)
  rw [compact,compactWithStrategy_neverStuck h.yields (neverStuck_of_wellFormed h.wf),hall]
  simp only [sieve,keptEntries_bottommost]
  cases buildSst X opts.sstBuilder (survivors none (mergeOrder ls)) <;> rfl

theorem survivors_sublist (last : Option Bytes) (es : List Entry) :
    (survivors last es).Sublist es := by
  induction es generalizing last with
  | nil => exact List.Sublist.refl _
  | cons e es ih =>
    rw [survivors]
    split
    · exact (ih _).cons_cons e
    · exact (ih _).cons e

theorem SortedInputs.survivors_wf {sources : List ArenaSource} {ls : List (List Entry)}
    (h : SortedInputs sources ls) : ∀ e ∈ survivors none (mergeOrder ls), WellFormed e.1 :=
  fun e he => mergeOrder_wf h.wf e ((survivors_sublist none _).subset he)

theorem SortedInputs.survivors_fit {sources : List ArenaSource} {ls : List (List Entry)}
    (h : SortedInputs sources ls) : ∀ e ∈ survivors none (mergeOrder ls), Fits e :=
  fun e he => yields_fit h.yields e
    ((mergeOrder_perm ls).subset ((survivors_sublist none _).subset he))

theorem SortedInputs.compact_fileOf {sources : List ArenaSource} {ls : List (List Entry)}
    (h : SortedInputs sources ls) (X : Crates) (opts : CompactionOptions) : ∃ bytes,
      compact X sources opts = .ok bytes ∧
      FileOf X bytes (written opts.sstBuilder (survivors none (mergeOrder ls))) := by
  rw [h.compact_eq X opts]
  exact buildSst_fileOf X opts.sstBuilder (writtenEntries_ok opts.sstBuilder h.survivors_wf)
    (written_fits opts.sstBuilder h.survivors_wf h.survivors_fit)

theorem totalBytes_survivors_le (ls : List (List Entry)) :
    totalBytes (survivors none (mergeOrder ls)) ≤ totalBytes ls.flatten := by
  rw [← totalBytes_perm (mergeOrder_perm ls)]
  exact totalBytes_sublist (survivors_sublist none _)

theorem SortedInputs.opens {sources : List ArenaSource} {ls : List (List Entry)}
    (h : SortedInputs sources ls) (opts : SstBuilderOptions)
    (ho : (strBytes opts.comparatorName).length+(strBytes opts.columnFamilyName).length < 2^50)
    (hn : ls.flatten.length < 2^50) (hb : totalBytes ls.flatten < 2^60) :
    ∃ reader : FileReader, compact .idle sources ⟨opts⟩ = .ok reader.contents := by
  have hlen : (survivors none (mergeOrder ls)).length ≤ ls.flatten.length :=
    (survivors_sublist none _).length_le.trans_eq (mergeOrder_perm ls).length_eq
  rw [h.compact_eq]
  exact smallOptions_opens opts h.survivors_wf (Nat.lt_of_le_of_lt hlen hn)
    (Nat.lt_of_le_of_lt (totalBytes_survivors_le ls) hb) ho

theorem survivors_live (last : Option Bytes) (es : List Entry) :
    ∀ e ∈ survivors last es, (valueType e.1).isTombstone = false := by
  induction es generalizing last with
  | nil => simp [survivors]
  | cons e es ih =>
    intro x hx
    rw [survivors] at hx
    split at hx
    · rename_i hk
      rcases List.mem_cons.mp hx with rfl | hx
      · exact hk.2
      · exact ih _ x hx
    · exact ih _ x hx

def Ascending (es : List Entry) : Prop :=
  es.Pairwise (fun a b => compare (userKey a.1) (userKey b.1) = .lt)

theorem compare_lt_of_ne {a b : Bytes} (h : compare a b ≠ .gt) (hne : a ≠ b) :
    compare a b = .lt := by
  cases hc : compare a b with
  | lt => rfl
  | eq => exact absurd (Std.LawfulEqOrd.eq_of_compare hc) hne
  | gt => exact absurd hc h

theorem survivors_above {u : Bytes} {es : List Entry} (hs : SortedEntries es)
    (hu : ∀ e ∈ es, compare u (userKey e.1) ≠ .gt) :
    ∀ e ∈ survivors (some u) es, compare u (userKey e.1) = .lt := by
  induction es generalizing u with
  | nil => simp [survivors]
  | cons e es ih =>
    obtain ⟨hfst,hrest⟩ := List.pairwise_cons.mp hs
    have hle := hu e (by simp)
    have hih := ih hrest (u:=userKey e.1) (fun x hx => compare_user_of_le (hfst x hx))
    intro x hx
    rw [survivors] at hx
    have htail : x ∈ survivors (some (userKey e.1)) es → compare u (userKey x.1) = .lt := by
      intro hx
      exact Std.TransCmp.lt_of_isLE_of_lt (Ordering.isLE_iff_ne_gt.mpr hle) (hih x hx)
    split at hx
    · rename_i hk
      rcases List.mem_cons.mp hx with rfl | hx
      · exact compare_lt_of_ne hle (fun hh => hk.1 (by rw [hh]))
      · exact htail hx
    · exact htail hx

theorem survivors_ascending (last : Option Bytes) {es : List Entry} (hs : SortedEntries es) :
    Ascending (survivors last es) := by
  induction es generalizing last with
  | nil => exact List.Pairwise.nil
  | cons e es ih =>
    obtain ⟨hfst,hrest⟩ := List.pairwise_cons.mp hs
    rw [survivors]
    split
    · exact List.pairwise_cons.mpr ⟨survivors_above hrest
        (fun x hx => compare_user_of_le (hfst x hx)),ih _ hrest⟩
    · exact ih _ hrest

theorem survivors_self {last : Option Bytes} {es : List Entry} (ha : Ascending es)
    (hl : ∀ e ∈ es, last ≠ some (userKey e.1))
    (ht : ∀ e ∈ es, (valueType e.1).isTombstone = false) : survivors last es = es := by
  induction es generalizing last with
  | nil => rfl
  | cons e es ih =>
    obtain ⟨hfst,hrest⟩ := List.pairwise_cons.mp ha
    rw [survivors,if_pos ⟨hl e (by simp),ht e (by simp)⟩,
      ih hrest ?_ (fun x hx => ht x (by simp [hx]))]
    intro x hx heq
    have hlt := hfst x hx
    have hself : compare (userKey x.1) (userKey x.1) = .eq := Std.ReflCmp.compare_self
    rw [Option.some.inj heq,hself] at hlt
    cases hlt

theorem ascending_sorted {es : List Entry} (h : Ascending es) : SortedEntries es := by
  refine h.imp (fun {a b} hab => ?_)
  rw [compareKeys,hab]
  simp

theorem ascending_written (opts : SstBuilderOptions) {es : List Entry} (h : Ascending es) :
    Ascending (written opts es) := by
  rw [written_eq_map,Ascending,List.pairwise_map]
  refine h.imp (fun {a b} hab => ?_)
  rw [(writtenEntry_key opts a).1,(writtenEntry_key opts b).1]
  exact hab

theorem written_live (opts : SstBuilderOptions) {es : List Entry}
    (h : ∀ e ∈ es, (valueType e.1).isTombstone = false) :
    ∀ e ∈ written opts es, (valueType e.1).isTombstone = false := by
  intro e he
  rw [written_eq_map] at he
  obtain ⟨x,hx,rfl⟩ := List.mem_map.mp he
  rw [(writtenEntry_key opts x).2]
  exact h x hx

def sameKeys : List (List Entry) :=
  [[([7] ++ leBytes 8 0x101,[1])],[([7] ++ leBytes 8 0x101,[2])]]

theorem sameKeys_inputs : SortedInputs (sameKeys.map .ofEntries) sameKeys :=
  SortedInputs.ofLists (by decide) (by decide) (by unfold KeysIn; decide)

end SstCompactor
