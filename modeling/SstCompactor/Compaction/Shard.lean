import SstCompactor.Compaction.Policies
import SstCompactor.Kway.Pieces

set_option autoImplicit false

namespace SstCompactor
open FixedWidth Pieces

/-- `Iterator::max_by_key`: of several maximal elements the last. -/
def maxByKey {α : Type} (key : α → Nat) : List α → Option α
  | [] => none
  | x :: xs => some (xs.foldl (fun best y => if key best ≤ key y then y else best) x)

def pickShardBoundaries (sources : List ArenaSource) (numShards : Nat) : Exec (List Bytes) := do
  let largest ← expect (maxByKey ArenaSource.totalLen sources)
    "sources is non-empty (checked by caller)"
  let n := largest.totalLen
  if n = 0 then pure []
  else
    (List.range' 1 (numShards-1)).mapM (fun i => do
      let product ← checkedMul 64 n i
      let last ← checkedSub n 1
      largest.keyAt (min (product/numShards) last))

/-- The loop over the boundaries, for one source. -/
def shardSource (source : ArenaSource) : Nat → List Bytes → Exec (List ArenaSource)
  | start, [] => do
      let s ← source.shard start source.totalLen
      pure [s]
  | start, boundary :: boundaries => do
      let stop ← source.lowerBound boundary
      let s ← source.shard start stop
      let rest ← shardSource source stop boundaries
      pure (s :: rest)

def shardInputs (sources : List ArenaSource) (boundaries : List Bytes) :
    Exec (List (List ArenaSource)) :=
  sources.foldlM (fun inputs source => do
    let shards ← shardSource source 0 boundaries
    pure (List.zipWith (fun input s => input ++ [s]) inputs shards))
    (List.replicate (boundaries.length+1) [])

variable (X : Crates)

/-- What awaiting a task makes of its outcome. -/
def awaitTask (r : Exec Bytes) : Exec Bytes :=
  match r with
  | .ok bytes => .ok bytes
  | .error (.err msg) => .error (.err msg)
  | .error .outOfFuel => .error .outOfFuel
  | .error panicked =>
    .error (.err ("subcompaction shard task panicked: " ++ X.joinError panicked))

/-- The tasks are awaited in shard order, whatever order they run in. -/
def compactSharded (sources : List ArenaSource) (numShards : Nat) (opts : CompactionOptions) :
    Exec (List Bytes) := do
  if numShards ≤ 1 ∨ sources.isEmpty then
    let bytes ← compact X sources opts
    pure [bytes]
  else
    let boundaries ← pickShardBoundaries sources numShards
    let inputs ← shardInputs sources boundaries
    inputs.mapM (fun shardSources => awaitTask X (compact X shardSources opts))

def userBelow (e : Entry) (u : Bytes) : Bool := compare (userKey e.1) u == .lt

/-- The user keys at which to cut, from the entries of the sources. -/
def boundaryKeys (ls : List (List Entry)) (numShards : Nat) : List Bytes :=
  match maxByKey List.length ls with
  | none => []
  | some l =>
    if l.length = 0 then []
    else (List.range' 1 (numShards-1)).map (fun i =>
      userKey (l.getD (min (l.length*i/numShards) (l.length-1)) ([],[])).1)

theorem userBelow_trans {a b : Entry} {u : Bytes}
    (hab : compare (userKey a.1) (userKey b.1) ≠ .gt) (hb : userBelow b u = true) :
    userBelow a u = true := by
  simp only [userBelow,beq_iff_eq] at hb ⊢
  exact Std.TransCmp.lt_of_isLE_of_lt (Ordering.isLE_iff_ne_gt.mpr hab) hb

theorem ascending_of_sorted {es : List Entry} (h : SortedEntries es) : Ascending userBelow es :=
  h.imp (fun hab _ hb => userBelow_trans (compare_user_of_le hab) hb)

section
variable {α : Type} {p : α → Exec Bool}

theorem bisect_cases {xs : List α} {fuel size base : Nat} (hfuel : size ≤ fuel+1)
    (hsize : 1 ≤ size) (hbase : base+size ≤ xs.length) :
    (∃ n, ArenaSource.bisect p xs fuel size base = .ok n ∧ n < xs.length) ∨
      ∃ e, ArenaSource.bisect p xs fuel size base = .error e ∧ ∃ x ∈ xs, p x = .error e := by
  induction fuel generalizing size base with
  | zero => exact .inl ⟨base,by rw [ArenaSource.bisect,if_pos (by omega)]; rfl,by omega⟩
  | succ fuel ih =>
    rw [ArenaSource.bisect]
    split
    · exact .inl ⟨base,rfl,by omega⟩
    · have hmid : base+size/2 < xs.length := by omega
      simp only [index_of_lt hmid,ok_bind]
      cases hp : p xs[base+size/2] with
      | error e => exact .inr ⟨e,rfl,_,List.getElem_mem hmid,hp⟩
      | ok below =>
        refine ih (by omega) (by omega) ?_
        split <;> omega

/-- On any slice, and whatever the predicate says, nothing outside of it is read and the loop comes
to an end: the search fails only where the predicate does. -/
theorem partitionPoint_cases (xs : List α) :
    (∃ n, ArenaSource.partitionPoint p xs = .ok n ∧ n ≤ xs.length) ∨
      ∃ e, ArenaSource.partitionPoint p xs = .error e ∧ ∃ x ∈ xs, p x = .error e := by
  rw [ArenaSource.partitionPoint]
  split
  · exact .inl ⟨0,rfl,Nat.zero_le _⟩
  · rename_i hne
    have hpos := List.length_pos_iff.mpr (fun h => hne (List.isEmpty_iff.mpr h))
    rcases bisect_cases (p:=p) (Nat.le_succ _) hpos (Nat.le_of_eq (Nat.zero_add _)) with
      ⟨n,hn,hlt⟩ | ⟨e,he,hmem⟩
    · simp only [hn,ok_bind,index_of_lt hlt]
      cases hp : p xs[n] with
      | error e => exact .inr ⟨e,rfl,_,List.getElem_mem hlt,hp⟩
      | ok below =>
        refine .inl ⟨_,rfl,?_⟩
        split <;> omega
    · exact .inr ⟨e,by rw [he,error_bind],hmem⟩

/-- A slice that is not partitioned, with an element that is never looked at. -/
example : ArenaSource.partitionPoint (fun n => if n = 9 then .error .overflow else .ok (n < 3))
    [9,1,2] = .ok 3 := by decide

variable {xs ys : List α} (hx : ∀ x ∈ xs, p x = .ok true) (hy : ∀ y ∈ ys, p y = .ok false)
include hx hy

theorem partitioned_at {i : Nat} (hi : i < (xs ++ ys).length) :
    p (xs ++ ys)[i] = .ok (decide (i < xs.length)) := by
  by_cases hlt : i < xs.length
  · rw [List.getElem_append_left hlt,hx _ (List.getElem_mem hlt),decide_eq_true hlt]
  · rw [List.getElem_append_right (Nat.not_lt.mp hlt),hy _ (List.getElem_mem _),
      decide_eq_false hlt]

/-- The window keeps the boundary, and its first element is below it or is the first of all. -/
theorem bisect_eq {fuel size base : Nat} (hfuel : size ≤ fuel+1) (hsize : 1 ≤ size)
    (hbase : base+size ≤ (xs ++ ys).length) (hlow : base = 0 ∨ base < xs.length)
    (hhigh : xs.length ≤ base+size) :
    ArenaSource.bisect p (xs ++ ys) fuel size base = .ok (xs.length-1) := by
  induction fuel generalizing size base with
  | zero =>
    rw [ArenaSource.bisect,if_pos (by omega),show base = xs.length-1 by omega]
    rfl
  | succ fuel ih =>
    rw [ArenaSource.bisect]
    split
    · rw [show base = xs.length-1 by omega]
      rfl
    · have hmid : base+size/2 < (xs ++ ys).length := by omega
      simp only [index_of_lt hmid,ok_bind,partitioned_at hx hy hmid,decide_eq_true_eq]
      split
      · exact ih (by omega) (by omega) (by omega) (by omega) (by omega)
      · exact ih (by omega) (by omega) (by omega) hlow (by omega)

theorem partitionPoint_eq : ArenaSource.partitionPoint p (xs ++ ys) = .ok xs.length := by
  rw [ArenaSource.partitionPoint]
  split
  · rename_i hempty
    obtain ⟨rfl,-⟩ := List.append_eq_nil_iff.mp (List.isEmpty_iff.mp hempty)
    rfl
  · rename_i hne
    have hpos := List.length_pos_iff.mpr (fun h => hne (List.isEmpty_iff.mpr h))
    have hle : xs.length ≤ (xs ++ ys).length := by
      rw [List.length_append]
      exact Nat.le_add_right _ _
    have hlast : xs.length-1 < (xs ++ ys).length := by omega
    rw [bisect_eq hx hy (Nat.le_succ _) hpos (by omega) (.inl rfl) (by omega)]
    simp only [ok_bind,index_of_lt hlast,partitioned_at hx hy hlast,pure_eq_ok,
      decide_eq_true_eq,Except.ok.injEq]
    split <;> omega

end

theorem lowerBound_eq {s : ArenaSource} {l : List Entry} (hr : Reads s.arena s.spans l)
    (hs : SortedEntries l) (hw : ∀ e ∈ l, WellFormed e.1) {b : Bytes} (hb : WellFormed b) :
    s.lowerBound b = .ok (splitList userBelow (userKey b) l).1.length := by
  have hcut := splitList_append (ascending_of_sorted hs) (userKey b)
  generalize hA : (splitList userBelow (userKey b) l).1 = A at hcut
  generalize hB : (splitList userBelow (userKey b) l).2 = B at hcut
  have hreads := hr
  rw [Reads,← hcut,List.map_append,List.map_eq_append_iff] at hreads
  obtain ⟨before,after,hspans,hbefore,hafter⟩ := hreads
  have hspan : ∀ (c : Bool) (spans : List EntrySpan) (es : List Entry),
      spans.map (ArenaSource.entry s.arena) = es.map .ok → (∀ e ∈ es, e ∈ l) →
      (∀ e ∈ es, userBelow e (userKey b) = c) → ∀ p ∈ spans, (do
        let k ← s.key p
        let o ← compareUserKeys k b
        pure (o == .lt)) = (Except.ok c : Exec Bool) := by
    intro c spans es hmap hmem hc p hp
    have hpe := List.mem_map_of_mem (f:=ArenaSource.entry s.arena) hp
    rw [hmap] at hpe
    obtain ⟨e,he,hpe⟩ := List.mem_map.mp hpe
    have hk : s.key p = .ok e.1 := (entry_eq_ok hpe.symm).1
    have hue := hc e he
    simp only [userBelow] at hue
    simp only [hk,ok_bind,compareUserKeys_ok (hw e (hmem e he)) hb,pure_eq_ok,hue]
  have hlen : before.length = A.length := by simpa using congrArg List.length hbefore
  rw [ArenaSource.lowerBound,hspans,partitionPoint_eq ?_ ?_,hlen]
  · refine hspan true before A hbefore (fun e he => ?_) (fun e he => ?_)
    · rw [← hA] at he
      exact (List.mem_filter.mp he).1
    · rw [← hA] at he
      exact (List.mem_filter.mp he).2
  · refine hspan false after B hafter (fun e he => ?_) (fun e he => ?_)
    · rw [← hB] at he
      exact (List.mem_filter.mp he).1
    · rw [← hB] at he
      simpa using (List.mem_filter.mp he).2

theorem shard_yields {s : ArenaSource} {A B C : List Entry}
    (hr : Reads s.arena s.spans (A ++ B ++ C)) : ∃ shard,
      s.shard A.length (A.length+B.length) = .ok shard ∧ Yields shard B := by
  have hlen := hr.length
  simp only [List.length_append] at hlen
  have hreq : require (decide (A.length ≤ A.length+B.length ∧
      A.length+B.length ≤ s.spans.length)) = .ok () := by
    rw [require,if_pos (by simp; omega)]
  refine ⟨⟨s.arena,s.spans,A.length,A.length+B.length⟩,by
    simp only [ArenaSource.shard,hreq,ok_bind,pure_eq_ok],?_⟩
  have hy := yields_window (s:=⟨s.arena,s.spans,A.length,A.length+B.length⟩) hr (by
    simp only [List.length_append]
    omega)
  have hwin : ((A ++ B ++ C).take (A.length+B.length)).drop A.length = B := by
    rw [← List.length_append,List.take_left,List.drop_left]
  rwa [hwin] at hy

structure Boundaries (bs : List Bytes) : Prop where
  wf : ∀ b ∈ bs, WellFormed b
  sorted : (bs.map userKey).Pairwise (fun u v => compare u v ≠ .gt)

theorem userBelow_mono {e : Entry} {u v : Bytes} (h : userBelow e u = true)
    (huv : compare u v ≠ .gt) : userBelow e v = true := by
  simp only [userBelow,beq_iff_eq] at h ⊢
  exact Std.TransCmp.lt_of_lt_of_isLE h (Ordering.isLE_iff_ne_gt.mpr huv)

/-- The windows of one source are the pieces of its entries. `A` is what the boundaries so far
have cut off. -/
theorem shardSource_yields {s : ArenaSource} (bs : List Bytes) (A B : List Entry)
    (hr : Reads s.arena s.spans (A ++ B)) (hs : SortedEntries (A ++ B))
    (hw : ∀ e ∈ A ++ B, WellFormed e.1) (hb : Boundaries bs)
    (hA : ∀ u ∈ bs.map userKey, ∀ e ∈ A, userBelow e u = true) : ∃ shards,
      shardSource s A.length bs = .ok shards ∧
      List.Forall₂ Yields shards (pieces (splitList userBelow) (bs.map userKey) B) := by
  induction bs generalizing A B with
  | nil =>
    obtain ⟨shard,hshard,hy⟩ := shard_yields (C:=[]) (by simpa using hr)
    have htotal : s.totalLen = A.length+B.length := by
      rw [ArenaSource.totalLen,hr.length,List.length_append]
    refine ⟨[shard],?_,.cons hy .nil⟩
    simp only [shardSource,htotal,hshard,ok_bind,pure_eq_ok]
  | cons b bs ih =>
    have hsB : SortedEntries B := hs.sublist (List.sublist_append_right A B)
    have hcut := splitList_append (ascending_of_sorted hsB) (userKey b)
    have hstop := lowerBound_eq hr hs hw (hb.wf b (by simp))
    have hbelow : (splitList userBelow (userKey b) (A ++ B)).1 =
        A ++ (splitList userBelow (userKey b) B).1 := by
      rw [splitList,List.filter_append,List.filter_eq_self.mpr (hA (userKey b) (by simp))]
      rfl
    rw [hbelow,List.length_append] at hstop
    generalize hB₁ : (splitList userBelow (userKey b) B).1 = B₁ at hcut hstop
    generalize hB₂ : (splitList userBelow (userKey b) B).2 = B₂ at hcut
    rw [← hcut,← List.append_assoc] at hr hs hw
    obtain ⟨shard,hshard,hy⟩ := shard_yields hr
    obtain ⟨hle,hsorted⟩ := List.pairwise_cons.mp hb.sorted
    obtain ⟨shards,hrest,hys⟩ := ih (A ++ B₁) B₂ hr hs hw
      ⟨fun c hc => hb.wf c (by simp [hc]),hsorted⟩ (by
        intro u hu e he
        rcases List.mem_append.mp he with he | he
        · exact hA u (by simp only [List.map_cons,List.mem_cons]; exact .inr hu) e he
        · rw [← hB₁] at he
          exact userBelow_mono (List.mem_filter.mp he).2 (hle u hu))
    rw [List.length_append] at hrest
    refine ⟨shard :: shards,?_,?_⟩
    · simp only [shardSource,hstop,ok_bind,hshard,hrest,pure_eq_ok]
    · simp only [List.map_cons,pieces,hB₁,hB₂]
      exact .cons hy hys

/-- Fresh sources of sorted entries, no key twice among them. -/
structure FreshInputs (sources : List ArenaSource) (ls : List (List Entry)) : Prop where
  inputs : Inputs sources ls
  fresh : ∀ s ∈ sources, s.Fresh

theorem FreshInputs.tail {s : ArenaSource} {sources : List ArenaSource} {l : List Entry}
    {ls : List (List Entry)} (h : FreshInputs (s :: sources) (l :: ls)) :
    FreshInputs sources ls where
  inputs := by
    obtain ⟨hy,hs,hd⟩ := h.inputs
    refine ⟨(List.forall₂_cons.mp hy).2,fun x hx => hs x (by simp [hx]),?_⟩
    rw [List.flatten_cons] at hd
    exact hd.sublist (List.sublist_append_right _ _)
  fresh := fun x hx => h.fresh x (by simp [hx])

theorem FreshInputs.head {s : ArenaSource} {sources : List ArenaSource} {l : List Entry}
    {ls : List (List Entry)} (h : FreshInputs (s :: sources) (l :: ls)) :
    Reads s.arena s.spans l ∧ SortedEntries l ∧ ∀ e ∈ l, WellFormed e.1 := by
  refine ⟨(h.fresh s (by simp)).reads (List.forall₂_cons.mp h.inputs.yields).1,
    h.inputs.sorted l (by simp),fun e he => h.inputs.distinct.wf e ?_⟩
  simp only [List.flatten_cons,List.mem_append]
  exact .inl he

theorem foldlM_shards {sources : List ArenaSource} {ls : List (List Entry)} {bs : List Bytes}
    (hb : Boundaries bs) (h : FreshInputs sources ls) (done : List (List Entry))
    (acc : List (List ArenaSource))
    (hacc : List.Forall₂ (List.Forall₂ Yields) acc
      (pieces (splitFamily userBelow) (bs.map userKey) done)) : ∃ inputs,
      sources.foldlM (fun inputs source => do
        let shards ← shardSource source 0 bs
        pure (List.zipWith (fun input s => input ++ [s]) inputs shards)) acc =
        (.ok inputs : Exec (List (List ArenaSource))) ∧
      List.Forall₂ (List.Forall₂ Yields) inputs
        (pieces (splitFamily userBelow) (bs.map userKey) (done ++ ls)) := by
  induction sources generalizing ls done acc with
  | nil =>
    cases h.inputs.yields
    exact ⟨acc,rfl,by simpa using hacc⟩
  | cons s sources ih =>
    cases ls with
    | nil => cases h.inputs.yields
    | cons l ls =>
      obtain ⟨hr,hs,hw⟩ := h.head
      obtain ⟨shards,hshards,hys⟩ := shardSource_yields bs [] l hr hs hw hb (by simp)
      have hnext : List.Forall₂ (List.Forall₂ Yields)
          (List.zipWith (fun input s => input ++ [s]) acc shards)
          (pieces (splitFamily userBelow) (bs.map userKey) (done ++ [l])) := by
        rw [family_snoc]
        exact forall₂_zipWith (fun _ _ _ _ h₁ h₂ => List.rel_append h₁ (.cons h₂ .nil)) hacc hys
      obtain ⟨inputs,hfold,hin⟩ := ih h.tail (done ++ [l]) _ hnext
      rw [List.append_assoc,List.singleton_append] at hin
      exact ⟨inputs,by simp only [List.foldlM_cons,List.length_nil] at hshards ⊢
                       simp only [hshards,ok_bind,pure_eq_ok]
                       exact hfold,hin⟩

theorem shardInputs_yields {sources : List ArenaSource} {ls : List (List Entry)}
    {bs : List Bytes} (hb : Boundaries bs) (h : FreshInputs sources ls) : ∃ inputs,
      shardInputs sources bs = .ok inputs ∧
      List.Forall₂ (List.Forall₂ Yields) inputs
        (pieces (splitFamily userBelow) (bs.map userKey) ls) := by
  have hempty : ∀ n : Nat, List.Forall₂ (List.Forall₂ (Yields (S:=ArenaSource)))
      (List.replicate n []) (List.replicate n []) := by
    intro n
    induction n with
    | zero => exact .nil
    | succ n ih => exact .cons .nil ih
  refine foldlM_shards hb h [] _ ?_
  rw [family_nil,List.length_map]
  exact hempty _

def Mergeable (ls : List (List Entry)) : Prop :=
  (∀ l ∈ ls, SortedEntries l) ∧ Distinct ls.flatten

theorem Mergeable.filter {ls : List (List Entry)} (h : Mergeable ls) (p : Entry → Bool) :
    Mergeable (ls.map (fun l => l.filter p)) := by
  constructor
  · intro l hl
    obtain ⟨whole,hwhole,rfl⟩ := List.mem_map.mp hl
    exact (h.1 whole hwhole).sublist List.filter_sublist
  · rw [← List.filter_flatten]
    exact h.2.sublist List.filter_sublist

theorem mergedEntries_filter {ls : List (List Entry)} (h : Mergeable ls) (p : Entry → Bool) :
    mergedEntries (ls.map (fun l => l.filter p)) = (mergedEntries ls).filter p := by
  have hd := (h.filter p).2
  have hp : (mergedEntries (ls.map (fun l => l.filter p))).Perm ((mergedEntries ls).filter p) := by
    refine (mergedEntries_perm _).trans ?_
    rw [← List.filter_flatten]
    exact ((mergedEntries_perm ls).filter p).symm
  exact sorted_unique (hd.perm (mergedEntries_perm _).symm) hp (mergedEntries_sorted _)
    ((mergedEntries_sorted ls).sublist List.filter_sublist)

theorem bottommostKept_filter {p : Bytes → Bool} (es : List Entry) :
    bottommostKept (es.filter (fun e => p (userKey e.1))) =
      (bottommostKept es).filter (fun e => p (userKey e.1)) := by
  rw [bottommostKept,bottommostKept,List.filter_filter,List.filter_filter]
  refine List.filter_congr (fun e _ => ?_)
  cases hp : p (userKey e.1) with
  | false => simp
  | true =>
    have hn : newestWhere always (es.filter (fun e => p (userKey e.1))) e =
        newestWhere always es e := by
      rw [Bool.eq_iff_iff,newestWhere_iff,newestWhere_iff]
      refine and_congr_right (fun _ => ⟨fun h x hx hu hv => ?_,fun h x hx => ?_⟩)
      · exact h x (List.mem_filter.mpr ⟨hx,by rw [hu]; exact hp⟩) hu hv
      · exact h x (List.mem_filter.mp hx).1
    simp [hn]

theorem written_filter (opts : SstBuilderOptions) {p : Bytes → Bool} (es : List Entry) :
    written opts (es.filter (fun e => p (userKey e.1))) =
      (written opts es).filter (fun e => p (userKey e.1)) := by
  rw [written_eq_map,written_eq_map,List.filter_map]
  refine congrArg _ (List.filter_congr (fun e _ => ?_))
  simp only [Function.comp,(writtenEntry_key opts e).1]

def compacted (opts : CompactionOptions) (ls : List (List Entry)) : List Entry :=
  written opts.sstBuilder (bottommostKept (mergedEntries ls))

/-- Compacting the pieces gives the pieces of what the compaction gives. -/
theorem compacted_pieces (opts : CompactionOptions) (us : List Bytes) {ls : List (List Entry)}
    (h : Mergeable ls) :
    (pieces (splitFamily userBelow) us ls).map (compacted opts) =
      pieces (splitList userBelow) us (compacted opts ls) := by
  have hfilter : ∀ (q : Bytes → Bool) (ls : List (List Entry)), Mergeable ls →
      compacted opts (ls.map (fun l => l.filter (fun e => q (userKey e.1)))) =
        (compacted opts ls).filter (fun e => q (userKey e.1)) := by
    intro q ls hls
    rw [compacted,mergedEntries_filter hls,bottommostKept_filter,written_filter]
    rfl
  refine pieces_map _ _ (compacted opts) (fun u ls hls => hls.filter _)
    (fun u ls hls => ⟨?_,?_⟩) us h
  · exact hfilter (fun k => compare k u == .lt) ls hls
  · exact hfilter (fun k => !(compare k u == .lt)) ls hls

theorem maxByKey_mem {α : Type} {key : α → Nat} {xs : List α} {x : α}
    (h : maxByKey key xs = some x) : x ∈ xs := by
  have hfold : ∀ (ys : List α) (y : α),
      ys.foldl (fun best z => if key best ≤ key z then z else best) y ∈ y :: ys := by
    intro ys
    induction ys with
    | nil => simp
    | cons z ys ih =>
      intro y
      rw [List.foldl_cons]
      split
      · exact List.mem_cons_of_mem _ (ih z)
      · rcases List.mem_cons.mp (ih y) with hy | hy
        · rw [hy]
          exact List.mem_cons_self
        · exact List.mem_cons_of_mem _ (List.mem_cons_of_mem _ hy)
  cases xs with
  | nil => simp [maxByKey] at h
  | cons y ys =>
    simp only [maxByKey,Option.some.injEq] at h
    rw [← h]
    exact hfold ys y

theorem maxByKey_rel {α β : Type} {f : α → Nat} {g : β → Nat} {R : α → β → Prop}
    (hR : ∀ x y, R x y → f x = g y) {xs : List α} {ys : List β} (h : List.Forall₂ R xs ys) :
    Option.Rel R (maxByKey f xs) (maxByKey g ys) := by
  cases h with
  | nil => exact .none
  | @cons x y xs ys hxy hrest =>
    refine .some ?_
    induction hrest generalizing x y with
    | nil => exact hxy
    | @cons x' y' xs ys hxy' _ ih =>
      simp only [List.foldl_cons,hR x y hxy,hR x' y' hxy']
      split
      · exact ih hxy'
      · exact ih hxy

theorem FreshInputs.reads {sources : List ArenaSource} {ls : List (List Entry)}
    (h : FreshInputs sources ls) :
    List.Forall₂ (fun s l => Reads s.arena s.spans l) sources ls := by
  induction sources generalizing ls with
  | nil =>
    cases h.inputs.yields
    exact .nil
  | cons s sources ih =>
    cases ls with
    | nil => cases h.inputs.yields
    | cons l ls => exact .cons h.head.1 (ih h.tail)

theorem compare_getD_le {l : List Entry} (hs : SortedEntries l) {i j : Nat} (hij : i ≤ j)
    (hj : j < l.length) :
    compare (userKey (l.getD i ([],[])).1) (userKey (l.getD j ([],[])).1) ≠ .gt := by
  have hi : i < l.length := by omega
  rw [List.getD_eq_getElem _ _ hi,List.getD_eq_getElem _ _ hj]
  rcases Nat.lt_or_eq_of_le hij with hlt | rfl
  · exact compare_user_of_le (List.pairwise_iff_getElem.mp hs i j hi hj hlt)
  · have hself : compare (userKey l[i].1) (userKey l[i].1) = .eq := Std.ReflCmp.compare_self
    rw [hself]
    decide

theorem boundaryKey_ok {s : ArenaSource} {l : List Entry} (hr : Reads s.arena s.spans l)
    (hzero : ¬ l.length = 0) {i : Nat} (hprod : l.length*i < 2^64) (numShards : Nat) : (do
      let product ← checkedMul 64 l.length i
      let last ← checkedSub l.length 1
      s.keyAt (min (product/numShards) last)) =
        (.ok (l.getD (min (l.length*i/numShards) (l.length-1)) ([],[])).1 : Exec Bytes) := by
  have hidx : min (l.length*i/numShards) (l.length-1) < l.length := by omega
  obtain ⟨p,hp,hen⟩ := hr.get _ hidx
  simp only [checkedMul,if_pos hprod,checkedSub_of_le (show 1 ≤ l.length by omega),ok_bind,
    ArenaSource.keyAt,index,hp,ArenaSource.key,(entry_eq_ok hen).1,List.getD_eq_getElem _ _ hidx]

theorem FreshInputs.longest {sources : List ArenaSource} {ls : List (List Entry)}
    (h : FreshInputs sources ls) (hne : sources ≠ []) : ∃ s l,
      maxByKey ArenaSource.totalLen sources = some s ∧ maxByKey List.length ls = some l ∧
      Reads s.arena s.spans l := by
  have hrel := maxByKey_rel (f:=ArenaSource.totalLen) (g:=List.length)
    (fun s l hr => hr.length) h.reads
  cases hm : maxByKey ArenaSource.totalLen sources with
  | none =>
    cases sources with
    | nil => exact absurd rfl hne
    | cons s sources => simp [maxByKey] at hm
  | some s =>
    rw [hm] at hrel
    cases hl : maxByKey List.length ls with
    | none => rw [hl] at hrel; cases hrel
    | some l =>
      rw [hl] at hrel
      obtain ⟨hr⟩ : Option.Rel (fun s l => Reads s.arena s.spans l) (some s) (some l) := hrel
      exact ⟨s,l,rfl,rfl,hr⟩

theorem spread_boundaries {l : List Entry} (hs : SortedEntries l) (hw : ∀ e ∈ l, WellFormed e.1)
    (hzero : ¬ l.length = 0) (numShards : Nat) :
    Boundaries ((List.range' 1 (numShards-1)).map (fun i =>
      (l.getD (min (l.length*i/numShards) (l.length-1)) ([],[])).1)) := by
  have hidx : ∀ i, min (l.length*i/numShards) (l.length-1) < l.length := fun i => by omega
  constructor
  · intro b hb
    obtain ⟨i,-,rfl⟩ := List.mem_map.mp hb
    rw [List.getD_eq_getElem _ _ (hidx i)]
    exact hw _ (List.getElem_mem (hidx i))
  · rw [List.map_map]
    refine List.pairwise_map.mpr ((List.pairwise_lt_range' 1).imp (fun {i j} hij => ?_))
    refine compare_getD_le hs ?_ (hidx j)
    have hdiv : l.length*i/numShards ≤ l.length*j/numShards :=
      Nat.div_le_div_right (Nat.mul_le_mul_left _ (Nat.le_of_lt hij))
    omega

theorem pickShardBoundaries_ok {sources : List ArenaSource} {ls : List (List Entry)}
    (h : FreshInputs sources ls) (hne : sources ≠ []) {numShards : Nat}
    (hfit : ls.flatten.length*numShards < 2^64) : ∃ bs,
      pickShardBoundaries sources numShards = .ok bs ∧ Boundaries bs ∧
      bs.map userKey = boundaryKeys ls numShards := by
  obtain ⟨s,l,hm,hl,hr⟩ := h.longest hne
  have hmem := maxByKey_mem hl
  have hlen : s.totalLen = l.length := hr.length
  simp only [pickShardBoundaries,hm,expect,ok_bind,boundaryKeys,hl,hlen]
  by_cases hzero : l.length = 0
  · exact ⟨[],by simp [hzero],⟨by simp,by simp⟩,by simp [hzero]⟩
  · have hle : l.length ≤ ls.flatten.length := (List.sublist_flatten_of_mem hmem).length_le
    have hprod : ∀ i ∈ List.range' 1 (numShards-1), l.length*i < 2^64 := by
      intro i hi
      have hi := List.mem_range'_1.mp hi
      exact Nat.lt_of_le_of_lt (Nat.mul_le_mul hle (by omega)) hfit
    have hwf : ∀ e ∈ l, WellFormed e.1 :=
      fun e he => h.inputs.distinct.wf e (List.mem_flatten.mpr ⟨l,hmem,he⟩)
    refine ⟨_,by
        rw [if_neg hzero]
        exact mapM_ok (fun i hi => boundaryKey_ok hr hzero (hprod i hi) numShards),
      spread_boundaries (h.inputs.sorted l hmem) hwf hzero numShards,?_⟩
    rw [if_neg hzero,List.map_map]
    rfl

theorem boundaryKeys_nil {sources : List ArenaSource} {ls : List (List Entry)}
    (h : FreshInputs sources ls) {numShards : Nat}
    (hone : numShards ≤ 1 ∨ sources.isEmpty = true) : boundaryKeys ls numShards = [] := by
  rcases hone with hle | hempty
  · have hrange : List.range' 1 (numShards-1) = [] := by
      rw [show numShards-1 = 0 by omega,List.range'_zero]
    unfold boundaryKeys
    split
    · rfl
    · simp [hrange]
  · have hnil : sources = [] := List.isEmpty_iff.mp hempty
    subst hnil
    cases h.inputs.yields
    rfl

theorem mapM_forall₂ {α β γ : Type} {f : α → Exec β} {R : α → γ → Prop} {Q : β → γ → Prop}
    {xs : List α} {zs : List γ} (hf : ∀ x z, z ∈ zs → R x z → ∃ y, f x = .ok y ∧ Q y z)
    (h : List.Forall₂ R xs zs) : ∃ ys, xs.mapM f = .ok ys ∧ List.Forall₂ Q ys zs := by
  induction h with
  | nil => exact ⟨[],rfl,.nil⟩
  | @cons x z xs zs hxz _ ih =>
    obtain ⟨y,hy,hq⟩ := hf x z (by simp) hxz
    obtain ⟨ys,hys,hqs⟩ := ih (fun x z hz => hf x z (by simp [hz]))
    exact ⟨y :: ys,by simp [List.mapM_cons,hy,hys],.cons hq hqs⟩

theorem FreshInputs.ofLists {ls : List (List Entry)}
    (h : Inputs (ls.map ArenaSource.ofEntries) ls) :
    FreshInputs (ls.map ArenaSource.ofEntries) ls where
  inputs := h
  fresh := by
    intro s hs
    obtain ⟨l,-,rfl⟩ := List.mem_map.mp hs
    exact ofEntries_fresh l

end SstCompactor
