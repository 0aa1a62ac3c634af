import SstCompactor.Kway.Cut
import SstCompactor.Merge.Last
import SstCompactor.Compaction.Survivors
import Mathlib.Data.List.TakeWhile

/-!
Sources with keys too short to be internal keys. The driver skips such an entry when it is
handed one, but the merger in front of it may have to compare the key, and cannot.
-/

set_option autoImplicit false

namespace SstCompactor
open FixedWidth Kway

def wellFormedOnly (l : List Entry) : List Entry := l.filter (fun e => WellFormed e.1)

def untilShort (l : List Entry) : List Entry := l.takeWhile (fun e => WellFormed e.1)

/-- At most one source has entries, or no key is short, or all short keys are in one source, and
that hands out the last entry if every source ends before its first short key. -/
def SkipsShort (ls : List (List Entry)) : Prop :=
  (ls.filterMap List.head?).length ≤ 1 ∨ KeysIn WellFormed ls ∨
    ∃ i, lastSource (Nat.clog 2 (max ls.length 1)) (ls.map untilShort) = some i ∧
      ∀ j l, ls[j]? = some l → j ≠ i → ∀ e ∈ l, WellFormed e.1

theorem untilShort_wf {l : List Entry} {e : Entry} (he : e ∈ untilShort l) : WellFormed e.1 :=
  of_decide_eq_true (List.mem_takeWhile_imp (p:=fun e : Entry => WellFormed e.1) he)

theorem untilShort_keys (ls : List (List Entry)) : KeysIn WellFormed (ls.map untilShort) := by
  intro l hl e he
  obtain ⟨l',-,rfl⟩ := List.mem_map.mp hl
  exact untilShort_wf he

theorem untilShort_sublist (l : List Entry) : (untilShort l).Sublist (wellFormedOnly l) := by
  have hself : (untilShort l).filter (fun e => WellFormed e.1) = untilShort l :=
    List.filter_eq_self.mpr (fun e he => decide_eq_true (untilShort_wf he))
  rw [← hself]
  exact (List.takeWhile_sublist _).filter _

/-- The sources alone decide whether a short key is compared. -/
theorem neverStuck_iff_skips {ls : List (List Entry)}
    (hs : ∀ l ∈ ls, SortedEntries (wellFormedOnly l)) : NeverStuck ls ↔ SkipsShort ls := by
  have hsorted : ∀ l ∈ ls.map untilShort, SortedEntries l := by
    intro l hl
    obtain ⟨l',hl',rfl⟩ := List.mem_map.mp hl
    exact (hs l' hl').sublist (untilShort_sublist l')
  have hlast : (bracketOf ls).lastOfCut keyLt (fun e => WellFormed e.1) =
      lastSource (Nat.clog 2 (max ls.length 1)) (ls.map untilShort) := by
    rw [← List.length_map (f:=untilShort),← last_bracketOf (untilShort_keys ls) hsorted,
      bracketOf_map rfl]
    rfl
  have hcut := @Bracket.safeRun_iff_clears Entry keyLt (fun e => WellFormed e.1) _
    (nodup_leaves_bracketOf ls)
  simp only [Bracket.Clears,decide_eq_true_eq,decide_eq_false_iff_not,hlast,fronts_bracketOf]
    at hcut
  rw [neverStuck_iff,hcut,SkipsShort]
  refine or_congr_right (or_congr ?_ (exists_congr (fun i => and_congr_right (fun _ => ?_))))
  · constructor
    · intro h l hl e he
      obtain ⟨i,hi⟩ := List.mem_iff_getElem?.mp hl
      exact h (i,e) (mem_bracketOf.mpr ⟨l,hi,he⟩)
    · intro h x hx
      obtain ⟨l,hl,he⟩ := mem_bracketOf.mp hx
      exact h l (List.mem_of_getElem? hl) x.2 he
  · constructor
    · intro h j l hl hne e he
      by_contra hw
      exact hne (h (j,e) (mem_bracketOf.mpr ⟨l,hl,he⟩) hw)
    · intro h x hx hw
      obtain ⟨l,hl,he⟩ := mem_bracketOf.mp hx
      by_contra hne
      exact hw (h x.1 l hl hne x.2 he)

section
variable {σ : Type} [CompactionStrategy σ] {sources sources' : List ArenaSource}
  {ls : List (List Entry)}

theorem compactWithStrategy_stuck (hy : List.Forall₂ Yields sources ls) (hm : ¬ NeverStuck ls)
    (X : Crates) (opts : CompactionOptions) (s : σ) :
    ∃ e, compactWithStrategy X sources opts s = .error e := by
  obtain ⟨e,he⟩ := merge_rejects hy hm (runFuel_enough hy)
  refine ⟨e,?_⟩
  rw [compactWithStrategy]
  cases hnew : LoserTreeMerger.new internalKeyComparator sources with
  | error f =>
    rw [hnew,error_bind] at he
    rw [error_bind]
    exact congrArg Except.error (Except.error.inj he)
  | ok m =>
    rw [hnew,ok_bind] at he
    rw [ok_bind,he,error_bind]

theorem wellFormedOnly_keys (ls : List (List Entry)) :
    KeysIn WellFormed (ls.map wellFormedOnly) := by
  intro l hl e he
  obtain ⟨l',-,rfl⟩ := List.mem_map.mp hl
  simpa using (List.mem_filter.mp he).2

theorem compactWithStrategy_skips (hy : List.Forall₂ Yields sources ls)
    (hy' : List.Forall₂ Yields sources' (ls.map wellFormedOnly)) (hm : NeverStuck ls)
    (X : Crates) (opts : CompactionOptions) (s : σ) :
    compactWithStrategy X sources opts s = compactWithStrategy X sources' opts s := by
  have horder : mergeOrder (ls.map wellFormedOnly) = wellFormedOnly (mergeOrder ls) :=
    mergeOrder_filter hm
  rw [compactWithStrategy_neverStuck hy hm,compactWithStrategy_neverStuck hy'
    (neverStuck_of_wellFormed (wellFormedOnly_keys ls)),horder]
  simp only [wellFormedOnly,List.filter_filter,Bool.and_self]

theorem compactWithStrategy_clean_fileOf
    (hy' : List.Forall₂ Yields sources' (ls.map wellFormedOnly)) (X : Crates)
    (opts : CompactionOptions) (s : σ) : ∃ bytes,
      compactWithStrategy X sources' opts s =
        .ok (bytes,(sieve s (mergeOrder (ls.map wellFormedOnly))).2) ∧
      FileOf X bytes
        (written opts.sstBuilder (sieve s (mergeOrder (ls.map wellFormedOnly))).1) := by
  have hkeys := wellFormedOnly_keys ls
  have hall : (mergeOrder (ls.map wellFormedOnly)).filter (fun e => WellFormed e.1) =
      mergeOrder (ls.map wellFormedOnly) :=
    List.filter_eq_self.mpr (fun e he => by simpa using mergeOrder_wf hkeys e he)
  have hsub : (sieve s (mergeOrder (ls.map wellFormedOnly))).1.Sublist
      (mergeOrder (ls.map wellFormedOnly)) := keptEntries_sublist _ _
  have hw : ∀ e ∈ (sieve s (mergeOrder (ls.map wellFormedOnly))).1, WellFormed e.1 :=
    fun e he => mergeOrder_wf hkeys e (hsub.subset he)
  obtain ⟨bytes,hb,hread⟩ := buildSst_fileOf X opts.sstBuilder
    (writtenEntries_ok opts.sstBuilder hw) (written_fits opts.sstBuilder hw (fun e he =>
      yields_fit hy' e ((mergeOrder_perm _).subset (hsub.subset he))))
  refine ⟨bytes,?_,hread⟩
  rw [compactWithStrategy_neverStuck hy' (neverStuck_of_wellFormed hkeys),hall]
  simp only [hb,ok_bind,pure_eq_ok]

/-- The driver skips short keys if and only if the sources let the merge get past them, and the
file has fewer than 2^32 data blocks. -/
theorem malformed_iff (X : Crates) (opts : CompactionOptions) (s : σ)
    (hy : List.Forall₂ Yields sources ls)
    (hy' : List.Forall₂ Yields sources' (ls.map wellFormedOnly))
    (hs : ∀ l ∈ ls, SortedEntries (wellFormedOnly l)) :
    ∃ bytes t, compactWithStrategy X sources' opts s = .ok (bytes,t) ∧
      ∀ reader' : FileReader, reader'.contents = bytes →
        ((∃ (reader : FileReader) (t' : σ) (out : List Entry),
            compactWithStrategy X sources opts s = .ok (reader.contents,t') ∧
            decodeSst X reader = .ok out ∧ decodeSst X reader' = .ok out) ↔
          SkipsShort ls ∧ dataBlockCount (written opts.sstBuilder
            (sieve s (mergeOrder (ls.map wellFormedOnly))).1) < 2^32) := by
  obtain ⟨bytes,hc,hread⟩ := compactWithStrategy_clean_fileOf hy' X opts s
  refine ⟨bytes,_,hc,fun reader' hr' => ?_⟩
  have hback := hread reader' hr'
  rw [← neverStuck_iff_skips hs]
  constructor
  · rintro ⟨reader,t',out,hrun,-,hout⟩
    refine ⟨?_,((hback.iff (fun _ => True)).mp ⟨out,hout,trivial⟩).1⟩
    by_contra hm
    obtain ⟨e,he⟩ := compactWithStrategy_stuck hy hm X opts s
    rw [he] at hrun
    contradiction
  · rintro ⟨hm,hlt⟩
    have hrun := (compactWithStrategy_skips hy hy' hm X opts s).trans hc
    rw [← hr'] at hrun
    exact ⟨reader',_,_,hrun,hback.low hlt,hback.low hlt⟩

end

def shortBehind : List (List Entry) :=
  [[([1] ++ leBytes 8 0x101,[1])],[([7] ++ leBytes 8 0x101,[2]),([1],[9])]]

theorem shortBehind_skips : SkipsShort shortBehind := by
  have hlog : Nat.clog 2 (max shortBehind.length 1) = 1 := Nat.clog_eq_one (by decide) (by decide)
  refine .inr (.inr ⟨1,by rw [hlog]; decide,?_⟩)
  intro j l hl hj
  have hlt : j < 2 := (List.getElem?_eq_some_iff.mp hl).1
  obtain rfl : j = 0 := by omega
  obtain rfl := Option.some.inj hl
  decide

theorem malformed_shortBehind :
    SkipsShort shortBehind ∧
    ∃ bytes t, compactWithStrategy .idle ((shortBehind.map wellFormedOnly).map .ofEntries)
        ⟨plainOptions⟩ BottommostStrategy.mk = .ok (bytes,t) ∧
      ∀ reader' : FileReader, reader'.contents = bytes →
        ((∃ (reader : FileReader) (t' : BottommostStrategy) (out : List Entry),
            compactWithStrategy .idle (shortBehind.map .ofEntries) ⟨plainOptions⟩
              BottommostStrategy.mk = .ok (reader.contents,t') ∧
            decodeSst .idle reader = .ok out ∧ decodeSst .idle reader' = .ok out) ↔
          SkipsShort shortBehind ∧ dataBlockCount (written plainOptions
            (sieve BottommostStrategy.mk (mergeOrder (shortBehind.map wellFormedOnly))).1) <
              2^32) :=
  ⟨shortBehind_skips,malformed_iff .idle ⟨plainOptions⟩ BottommostStrategy.mk
    (ofEntries_all_yield (by decide)) (ofEntries_all_yield (by decide)) (by decide)⟩

def shortBeside : List (List Entry) := [[([1],[9])],[([7] ++ leBytes 8 0x101,[1])]]

theorem malformed_shortBeside :
    List.Forall₂ Yields (shortBeside.map ArenaSource.ofEntries) shortBeside ∧
    (∀ l ∈ shortBeside, SortedEntries (wellFormedOnly l)) ∧
    ¬ ∃ bytes t, compactWithStrategy .idle (shortBeside.map .ofEntries) ⟨plainOptions⟩
      BottommostStrategy.mk = .ok (bytes,t) := by
  have hy : List.Forall₂ Yields (shortBeside.map ArenaSource.ofEntries) shortBeside :=
    ofEntries_all_yield (by decide)
  refine ⟨hy,by decide,?_⟩
  rintro ⟨bytes,t,hc⟩
  have hm : ¬ NeverStuck shortBeside := by
    intro hm
    have h₀ := hm 0
    rw [Bracket.popN,fronts_bracketOf] at h₀
    exact absurd h₀ (by decide)
  obtain ⟨e,he⟩ := compactWithStrategy_stuck hy hm .idle ⟨plainOptions⟩ BottommostStrategy.mk
  rw [he] at hc
  contradiction

end SstCompactor
