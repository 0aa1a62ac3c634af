import SstCompactor.Kway.Flags
import SstCompactor.Merge.LoserTree
import Mathlib.Data.Nat.Find

/-!
The order in which the loser tree hands out entries, ties included, and what it does with keys
its comparator rejects. The merger runs through the states of a bracket: a run is what the
bracket emits, and it fails as soon as two keys meet that cannot be compared.
-/

set_option autoImplicit false

namespace SstCompactor
open Tournament Kway

def Rejects (C : KeyComparator) (D : Bytes → Prop) : Prop :=
  ∀ a b, ¬ (D a ∧ D b) → ∃ e, compareWithPrefix C a b = .error e

theorem internalKeyComparator_rejects : Rejects internalKeyComparator WellFormed := by
  have hshort : ∀ k, ¬ WellFormed k → splitSuffix k = .error .overflow := by
    intro k hk
    have hlt : ¬ suffixLen ≤ k.length := hk
    rw [splitSuffix,checkedSub,if_neg hlt]
    rfl
  intro a b hab
  show ∃ e, internalKeyCompare a b = .error e
  by_cases ha : WellFormed a
  · have hb : ¬ WellFormed b := fun hb => hab ⟨ha,hb⟩
    rw [internalKeyCompare,splitSuffix_ok ha,hshort b hb]
    exact ⟨_,rfl⟩
  · rw [internalKeyCompare,hshort a ha]
    exact ⟨_,rfl⟩

section
variable {S : Type} [MergeSource S] {C : KeyComparator} {D : Bytes → Prop}
  {cmp : Bytes → Bytes → Ordering}

theorem less_rejects (hR : Rejects C D) {m : LoserTreeMerger S} {ls : List (List Entry)}
    (hy : List.Forall₂ Yields m.sources ls) {a b : Nat} {x y : Entry}
    (ha : headOf ls a = some x) (hb : headOf ls b = some y) (hd : ¬ (D x.1 ∧ D y.1)) :
    ∃ e, m.less C a b = .error e := by
  obtain ⟨e,he⟩ := hR x.1 y.1 hd
  refine ⟨e,?_⟩
  rw [headOf] at ha hb
  simp only [LoserTreeMerger.less,peekAt_eq hy,ha,hb,ok_bind,he,error_bind]

theorem buildSubtree_rejects (hC : OrdersAs C D cmp) (hR : Rejects C D)
    {ls : List (List Entry)} (h fuel : Nat) (m : LoserTreeMerger S) (n : Nat)
    (hy : List.Forall₂ Yields m.sources ls) (hlen : m.tree.length = m.kPadded)
    (hn : Spans m.kPadded h n) (hf : h < fuel)
    (hs : ¬ (fullUnder m.kPadded ls h n).Safe (entryLt cmp) (fun e => D e.1)) :
    ∃ e, LoserTreeMerger.buildSubtree C fuel m n = .error e := by
  induction h generalizing fuel m n with
  | zero => exact absurd trivial hs
  | succ h ih =>
    obtain ⟨fuel,rfl⟩ := Nat.exists_eq_succ_of_ne_zero (show fuel ≠ 0 by omega)
    have hge : ¬ n ≥ m.kPadded := by have := hn.inner; omega
    by_cases hsa : (fullUnder m.kPadded ls h (2*n)).Safe (entryLt cmp) (fun e => D e.1)
    · obtain ⟨a,t₁,hb₁,hp₁,hl₁,-⟩ := buildSubtree_mirrors hC h fuel m (2*n) hy hlen hn.left
        (by omega) hsa
      by_cases hsb : (fullUnder m.kPadded ls h (2*n+1)).Safe (entryLt cmp) (fun e => D e.1)
      · obtain ⟨b,t₂,hb₂,hp₂,-,-⟩ := buildSubtree_mirrors hC h fuel { m with tree := t₁ } (2*n+1)
          hy (hl₁.trans hlen) hn.right (by omega) hsb
        -- Both halves are fine, so it is their winners that cannot be compared.
        have hpair : ∃ x y, headOf ls a = some x ∧ headOf ls b = some y ∧
            ¬ (D x.1 ∧ D y.1) := by
          by_contra hno
          push Not at hno
          refine hs ⟨hsa,hsb,fun x y hx hy => ?_⟩
          rw [mirrors_front hp₁] at hx
          rw [mirrors_front hp₂] at hy
          obtain ⟨u,hu,rfl⟩ := Option.map_eq_some_iff.mp hx
          obtain ⟨v,hv,rfl⟩ := Option.map_eq_some_iff.mp hy
          exact hno u v hu hv
        obtain ⟨x,y,hx,hy',hd⟩ := hpair
        obtain ⟨e,he⟩ := less_rejects hR (m:={ m with tree := t₂ }) hy hx hy' hd
        simp only at hb₂
        exact ⟨e,by simp only [LoserTreeMerger.buildSubtree,hge,↓reduceIte,hb₁,ok_bind,hb₂,he,
          error_bind]⟩
      · obtain ⟨e,he⟩ := ih fuel { m with tree := t₁ } (2*n+1) hy (hl₁.trans hlen) hn.right
          (by omega) hsb
        exact ⟨e,by simp only [LoserTreeMerger.buildSubtree,hge,↓reduceIte,hb₁,ok_bind,he,
          error_bind]⟩
    · obtain ⟨e,he⟩ := ih fuel m (2*n) hy hlen hn.left (by omega) hsa
      exact ⟨e,by simp only [LoserTreeMerger.buildSubtree,hge,↓reduceIte,he,error_bind]⟩

theorem new_rejects (hC : OrdersAs C D cmp) (hR : Rejects C D) (sources : List S)
    {ls : List (List Entry)} (hy : List.Forall₂ Yields sources ls)
    (hs : ¬ (bracketOf ls).Safe (entryLt cmp) (fun e => D e.1)) :
    ∃ e, LoserTreeMerger.new C sources = .error e := by
  let H := Nat.clog 2 (max ls.length 1)
  let m₀ : LoserTreeMerger S := ⟨sources,List.replicate (2^H) noneYet,0,2^H⟩
  obtain ⟨e,he⟩ := buildSubtree_rejects hC hR H (2^H+1) m₀ 1 hy (by simp [m₀]) (spans_root H)
    (by have := Nat.lt_two_pow_self (n:=H); omega) hs
  refine ⟨e,?_⟩
  have he' : LoserTreeMerger.buildSubtree C (m₀.kPadded+1) m₀ 1 = _ := he
  rw [LoserTreeMerger.new,hy.length_eq]
  show LoserTreeMerger.build C m₀ = _
  simp only [LoserTreeMerger.build,he',error_bind]

theorem exists_first_not {P : Nat → Prop} {n : Nat} (h : ¬ ∀ i < n, P i) :
    ∃ q, q < n ∧ ¬ P q ∧ ∀ i < q, P i := by
  classical
  simp only [not_forall] at h
  obtain ⟨hq,hbad⟩ := Nat.find_spec h
  refine ⟨Nat.find h,hq,hbad,fun i hi => ?_⟩
  by_contra hno
  exact Nat.find_min h hi ⟨by omega,hno⟩

theorem replayFromLeaf_rejects (hC : OrdersAs C D cmp) (hR : Rejects C D)
    {ls : List (List Entry)} (m : LoserTreeMerger S) (hy : List.Forall₂ Yields m.sources ls)
    {H : Nat} (hk : m.kPadded = 2^H) (hlen : m.tree.length = 2^H)
    (hleaf : (2^H+m.winner)/2^H = 1)
    (hf : ¬ ∀ i < H, Fair (fun e => D e.1) ls
      (climb (frontLt cmp ls) m.tree (2^H+m.winner) m.winner i) ((2^H+m.winner)/2^(i+1))) :
    ∃ e, LoserTreeMerger.replayFromLeaf C m m.winner = .error e := by
  obtain ⟨q,hq,hbad,hfirst⟩ := exists_first_not hf
  simp only [Fair,not_forall] at hbad
  obtain ⟨l,x,y,hl,hx,hyl,hd⟩ := hbad
  obtain ⟨hnode,-,-⟩ := path_node (j:=q) (r:=H-q-1) hleaf (by omega)
  have hpow : H < (2^H+m.winner)/2+1 := by
    have := Nat.lt_two_pow_self (n:=H-1)
    have hh : 2^H = 2^(H-1)*2 := by rw [← Nat.pow_succ]; congr 1; omega
    omega
  obtain ⟨f,hfuel⟩ := Nat.exists_eq_add_of_lt (show q < (2^H+m.winner)/2+1 by omega)
  obtain ⟨e,he⟩ := less_rejects hR (m:={ m with
    tree := (climb (frontLt cmp ls) m.tree (2^H+m.winner) m.winner q).1 }) hy hx hyl hd
  refine ⟨e,?_⟩
  have hhalf : (m.winner+m.kPadded)/2 = (2^H+m.winner)/2 := by rw [hk,Nat.add_comm]
  rw [LoserTreeMerger.replayFromLeaf,hhalf,hfuel,show q+f+1 = f+1+q by omega]
  rw [replay_first hC m hy m.tree hlen hleaf q (f+1) hq hfirst]
  simp only [LoserTreeMerger.replay,hnode,↓reduceIte,index_of_getElem? hl,ok_bind,he,error_bind]

/-- The merger stands where the bracket `t` over the lists `ls` does. -/
structure Tracks (cmp : Bytes → Bytes → Ordering) (H : Nat) (m : LoserTreeMerger S)
    (ls : List (List Entry)) (t : Bracket Entry) : Prop where
  yields : List.Forall₂ Yields m.sources ls
  padded : m.kPadded = 2^H
  size : m.tree.length = 2^H
  mirrors : Mirrors (entryLt cmp) (2^H) m.tree ls H 1 m.winner t

theorem Tracks.front {H : Nat} {m : LoserTreeMerger S} {ls : List (List Entry)}
    {t : Bracket Entry} (h : Tracks cmp H m ls t) {x : Nat × Entry}
    (hx : t.front (entryLt cmp) = some x) :
    ∃ rest, ls[m.winner]? = some (x.2 :: rest) := by
  rw [mirrors_front h.mirrors] at hx
  obtain ⟨e,he,rfl⟩ := Option.map_eq_some_iff.mp hx
  obtain ⟨l,hl,hhead⟩ := Option.bind_eq_some_iff.mp he
  obtain ⟨rest,rfl⟩ := List.head?_eq_some_iff.mp hhead
  exact ⟨rest,hl⟩

section
variable {H : Nat} {m : LoserTreeMerger S} {ls : List (List Entry)} {t : Bracket Entry}
  {s : S} {e : Entry} {rest : List Entry}

theorem Tracks.advance (hC : OrdersAs C D cmp) (h : Tracks cmp H m ls t)
    (hys : Yields s (e :: rest)) (hw : ls[m.winner]? = some (e :: rest))
    (hs : t.Safe (entryLt cmp) (fun e => D e.1))
    (hp : (t.pop (entryLt cmp)).Safe (entryLt cmp) (fun e => D e.1)) :
    ∃ m', LoserTreeMerger.replayFromLeaf C
        { m with sources := m.sources.set m.winner (MergeSource.advance s) } m.winner = .ok m' ∧
      Tracks cmp H m' (ls.set m.winner rest) (t.pop (entryLt cmp)) := by
  have hfair := (climb_fair (by decide) h.mirrors hw hs).mp hp
  have hmir := climb_mirrors (by decide) h.mirrors hw
  rw [← frontLt_eq] at hfair hmir
  have hy' := forall₂_set (i:=m.winner) h.yields hys.advance
  refine ⟨_,replayFromLeaf_climb hC
    { m with sources := m.sources.set m.winner (MergeSource.advance s) } hy' h.padded h.size
    (mirrors_leaf h.mirrors) hfair,hy',h.padded,?_,hmir⟩
  rw [climb_length]
  exact h.size

theorem Tracks.advance_rejects (hC : OrdersAs C D cmp) (hR : Rejects C D)
    (h : Tracks cmp H m ls t) (hys : Yields s (e :: rest))
    (hw : ls[m.winner]? = some (e :: rest)) (hs : t.Safe (entryLt cmp) (fun e => D e.1))
    (hp : ¬ (t.pop (entryLt cmp)).Safe (entryLt cmp) (fun e => D e.1)) :
    ∃ f, LoserTreeMerger.replayFromLeaf C
      { m with sources := m.sources.set m.winner (MergeSource.advance s) } m.winner =
        .error f := by
  have hfair := mt (climb_fair (by decide) h.mirrors hw hs).mpr hp
  rw [← frontLt_eq] at hfair
  exact replayFromLeaf_rejects hC hR
    { m with sources := m.sources.set m.winner (MergeSource.advance s) }
    (forall₂_set (i:=m.winner) h.yields hys.advance) h.padded h.size (mirrors_leaf h.mirrors)
    hfair

end

theorem Tracks.run {H : Nat} (hC : OrdersAs C D cmp) {m : LoserTreeMerger S}
    {ls : List (List Entry)} {t : Bracket Entry} (h : Tracks cmp H m ls t)
    (hs : t.SafeRun (entryLt cmp) (fun e => D e.1)) :
    ∃ m', ∀ fuel, t.contents.length < fuel →
      LoserTreeMerger.run C fuel m = .ok ((t.emits (entryLt cmp)).map Prod.snd,m') := by
  induction t using Bracket.emits_induction (entryLt cmp) generalizing m ls with
  | none t hf =>
    refine ⟨m,fun fuel hfuel => ?_⟩
    obtain ⟨fuel,rfl⟩ := Nat.exists_eq_succ_of_ne_zero (show fuel ≠ 0 by omega)
    rw [mirrors_front h.mirrors,Option.map_eq_none_iff] at hf
    rw [run_stop h.yields hf,Bracket.emits_none (by rw [mirrors_front h.mirrors,hf]; rfl)]
    rfl
  | some t x hf ih =>
    obtain ⟨hnow,hlater⟩ := Bracket.safeRun_iff.mp hs
    obtain ⟨rest,hw⟩ := h.front hf
    obtain ⟨s,hys,hstep⟩ := run_step (C:=C) h.yields hw
    obtain ⟨m₁,hrep,htr⟩ := h.advance hC hys hw hnow (hlater 0)
    obtain ⟨m',hrun⟩ := ih htr hlater
    refine ⟨m',fun fuel hfuel => ?_⟩
    have hl := Bracket.length_pop hf
    obtain ⟨fuel,rfl⟩ := Nat.exists_eq_succ_of_ne_zero (show fuel ≠ 0 by omega)
    rw [hstep,hrep,ok_bind,hrun fuel (by omega),Bracket.emits_some hf]
    rfl

theorem Tracks.run_rejects {H : Nat} (hC : OrdersAs C D cmp) (hR : Rejects C D)
    {m : LoserTreeMerger S} {ls : List (List Entry)} {t : Bracket Entry}
    (h : Tracks cmp H m ls t) (hnow : t.Safe (entryLt cmp) (fun e => D e.1))
    (hs : ¬ t.SafeRun (entryLt cmp) (fun e => D e.1)) (fuel : Nat)
    (hfuel : t.contents.length < fuel) : ∃ e, LoserTreeMerger.run C fuel m = .error e := by
  induction t using Bracket.emits_induction (entryLt cmp) generalizing m ls fuel with
  | none t hf => exact absurd (Bracket.safeRun_empty ((Bracket.front_none (entryLt cmp)).mp hf)) hs
  | some t x hf ih =>
    have hl := Bracket.length_pop hf
    obtain ⟨fuel,rfl⟩ := Nat.exists_eq_succ_of_ne_zero (show fuel ≠ 0 by omega)
    obtain ⟨rest,hw⟩ := h.front hf
    obtain ⟨s,hys,hstep⟩ := run_step (C:=C) h.yields hw
    rw [hstep]
    by_cases hp : (t.pop (entryLt cmp)).Safe (entryLt cmp) (fun e => D e.1)
    · obtain ⟨m₁,hrep,htr⟩ := h.advance hC hys hw hnow hp
      obtain ⟨e,he⟩ := ih htr hp (fun hl => hs (Bracket.safeRun_iff.mpr ⟨hnow,hl⟩)) fuel
        (by omega)
      exact ⟨e,by rw [hrep,ok_bind,he,error_bind]⟩
    · obtain ⟨e,he⟩ := h.advance_rejects hC hR hys hw hnow hp
      exact ⟨e,by rw [he,error_bind]⟩

theorem new_tracks (hC : OrdersAs C D cmp) (sources : List S) {ls : List (List Entry)}
    (hy : List.Forall₂ Yields sources ls)
    (hs : (bracketOf ls).Safe (entryLt cmp) (fun e => D e.1)) :
    ∃ m H, LoserTreeMerger.new C sources = .ok m ∧ Tracks cmp H m ls (bracketOf ls) := by
  obtain ⟨w,tree,hnew,hl,hm⟩ := new_mirrors hC sources hy hs rfl
  exact ⟨_,_,hnew,hy,rfl,hl,hm⟩

end

abbrev keyLt : Entry → Entry → Bool := entryLt compareKeys

def mergeOrder (ls : List (List Entry)) : List Entry :=
  ((bracketOf ls).emits keyLt).map Prod.snd

/-- At no point of the merge do two sources have entries left while one of them stands at a
key that is too short. -/
def NeverStuck (ls : List (List Entry)) : Prop :=
  ∀ n, ((bracketOf ls).popN keyLt n).fronts.length ≤ 1 ∨
    ∀ e ∈ ((bracketOf ls).popN keyLt n).fronts, WellFormed e.1

theorem neverStuck_iff {ls : List (List Entry)} :
    NeverStuck ls ↔ (bracketOf ls).SafeRun keyLt (fun e => WellFormed e.1) :=
  forall_congr' (fun _ => Bracket.safe_iff.symm)

theorem mergeOrder_perm (ls : List (List Entry)) : (mergeOrder ls).Perm ls.flatten := by
  rw [← contents_bracketOf]
  exact (Bracket.emits_perm keyLt (bracketOf ls)).map Prod.snd

theorem mergeOrder_single (l : List Entry) : mergeOrder [l] = l := by
  have hc : Nat.clog 2 (max [l].length 1) = 0 := by simp
  have hb : bracketOf [l] = .leaf 0 l := by rw [bracketOf,hc]; rfl
  rw [mergeOrder,Bracket.emits_single (by rw [hb]; cases l <;> simp),contents_bracketOf]
  simp

theorem length_contents_bracketOf (ls : List (List Entry)) :
    (bracketOf ls).contents.length = ls.flatten.length := by
  rw [← contents_bracketOf,List.length_map]

section
variable {S : Type} [MergeSource S] {sources : List S} {ls : List (List Entry)}

theorem merge_order (hy : List.Forall₂ Yields sources ls) (hm : NeverStuck ls) : ∃ m m',
    LoserTreeMerger.new internalKeyComparator sources = .ok m ∧
    ∀ fuel, ls.flatten.length < fuel →
      LoserTreeMerger.run internalKeyComparator fuel m = .ok (mergeOrder ls,m') := by
  have hs := neverStuck_iff.mp hm
  obtain ⟨m,H,hnew,htr⟩ := new_tracks internalKeyComparator_orders sources hy (hs 0)
  obtain ⟨m',hrun⟩ := htr.run internalKeyComparator_orders hs
  exact ⟨m,m',hnew,fun fuel hf => hrun fuel (by rwa [length_contents_bracketOf])⟩

theorem merge_rejects (hy : List.Forall₂ Yields sources ls) (hm : ¬ NeverStuck ls) {fuel : Nat}
    (hf : ls.flatten.length < fuel) :
    ∃ e, (do
      let m ← LoserTreeMerger.new internalKeyComparator sources
      LoserTreeMerger.run internalKeyComparator fuel m) = .error e := by
  rw [neverStuck_iff] at hm
  by_cases hnow : (bracketOf ls).Safe keyLt (fun e => WellFormed e.1)
  · obtain ⟨m,H,hnew,htr⟩ := new_tracks internalKeyComparator_orders sources hy hnow
    obtain ⟨e,he⟩ := htr.run_rejects internalKeyComparator_orders internalKeyComparator_rejects
      hnow hm fuel (by rwa [length_contents_bracketOf])
    exact ⟨e,by rw [hnew,ok_bind,he]⟩
  · obtain ⟨e,he⟩ := new_rejects internalKeyComparator_orders internalKeyComparator_rejects
      sources hy hnow
    exact ⟨e,by rw [he,error_bind]⟩

end

theorem neverStuck_of_wellFormed {ls : List (List Entry)} (hw : KeysIn WellFormed ls) :
    NeverStuck ls :=
  neverStuck_iff.mpr (safeRun_bracketOf hw)

def keyCmp (x y : Entry) : Ordering := compareKeys x.1 y.1

instance : Std.TransCmp keyCmp where
  eq_swap {x y} := compareKeys_swap y.1 x.1
  isLE_trans {x y z} h₁ h₂ := by
    rw [Ordering.isLE_iff_ne_gt] at h₁ h₂ ⊢
    exact compareKeys_trans h₁ h₂

theorem ltOf_keyCmp : ltOf keyCmp = keyLt := rfl

theorem mergeOrder_sorted {ls : List (List Entry)} (hs : ∀ l ∈ ls, SortedEntries l) :
    SortedEntries (mergeOrder ls) := by
  have hsorted : (bracketOf ls).Sorted keyCmp := sorted_fullUnder hs _ _ _
  exact hsorted.emits_sorted

/-- Entries with short keys that are never compared might as well not be there. -/
theorem mergeOrder_filter {ls : List (List Entry)} (h : NeverStuck ls) :
    mergeOrder (ls.map (List.filter (fun e => WellFormed e.1))) =
      (mergeOrder ls).filter (fun e => WellFormed e.1) := by
  have hs : (bracketOf ls).SafeRun keyLt (fun e => decide (WellFormed e.1) = true) := by
    simpa using neverStuck_iff.mp h
  rw [mergeOrder,mergeOrder,bracketOf_map List.filter_nil,Bracket.emits_filter hs,List.filter_map]
  rfl

end SstCompactor
