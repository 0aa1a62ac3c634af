import SstCompactor.Merge.KeyOrder
import SstCompactor.Merge.Order

set_option autoImplicit false

namespace SstCompactor
open FixedWidth Kway

theorem bytewiseComparator_orders : OrdersAs bytewiseComparator (fun _ => True) compare where
  compare_eq := fun _ _ _ _ => rfl
  swap := fun a b _ _ => compareBytes_swap a b
  trans := by
    intro a b c _ _ _ h₁ h₂
    apply Ordering.isLE_iff_ne_gt.mp
    exact Std.TransCmp.isLE_trans (Ordering.isLE_iff_ne_gt.mpr h₁)
      (Ordering.isLE_iff_ne_gt.mpr h₂)
  sortPrefix_eq := by intro h; simp [bytewiseComparator] at h

theorem compare_append_cases (u v s t : Bytes) :
    (∃ w, v = u ++ w ∧ compare (u ++ s) (v ++ t) = compare s (w ++ t)) ∨
    (∃ w, w ≠ [] ∧ u = v ++ w ∧ compare (u ++ s) (v ++ t) = compare (w ++ s) t) ∨
    ((∀ w, v ≠ u ++ w) ∧ (∀ w, u ≠ v ++ w) ∧ compare (u ++ s) (v ++ t) = compare u v) := by
  induction u generalizing v with
  | nil => exact .inl ⟨v,rfl,rfl⟩
  | cons x u ih =>
    cases v with
    | nil => exact .inr (.inl ⟨x :: u,by simp,rfl,rfl⟩)
    | cons y v =>
      simp only [List.cons_append,List.compare_cons_cons,List.cons.injEq]
      by_cases hxy : x = y
      · subst hxy
        have hc : compare x x = .eq := Std.ReflCmp.compare_self
        simp only [hc,Ordering.eq_then,true_and]
        rcases ih v with ⟨w,hw,he⟩ | ⟨w,hn,hw,he⟩ | ⟨h₁,h₂,he⟩
        · exact .inl ⟨w,hw,he⟩
        · exact .inr (.inl ⟨w,hn,hw,he⟩)
        · exact .inr (.inr ⟨fun w h => h₁ w (by simpa using h),
            fun w h => h₂ w (by simpa using h),he⟩)
      · have hne : compare x y ≠ .eq := fun he => hxy (Std.LawfulEqOrd.eq_of_compare he)
        refine .inr (.inr ⟨fun w h => ?_,fun w h => ?_,?_⟩)
        · exact hxy (List.cons.inj h).1.symm
        · exact hxy (List.cons.inj h).1
        · cases hc : compare x y with
          | lt => rfl
          | eq => exact absurd hc hne
          | gt => rfl

theorem compare_runs_on (u : Bytes) {w : Bytes} (h : w ≠ []) : compare u (u ++ w) = .lt := by
  induction u with
  | nil =>
    obtain ⟨x,w,rfl⟩ := List.exists_cons_of_ne_nil h
    rfl
  | cons x u ih =>
    have hc : compare x x = .eq := Std.ReflCmp.compare_self
    rw [List.cons_append,List.compare_cons_cons,hc,Ordering.eq_then,ih]

theorem compare_suffixed_iff (u v s : Bytes) :
    compare (u ++ s) (v ++ s) = compare u v ↔ ∀ w, w ≠ [] → v = u ++ w ∨ u = v ++ w →
      compare s (w ++ s) = .lt := by
  rcases compare_append_cases u v s s with ⟨w,rfl,he⟩ | ⟨w,hn,rfl,he⟩ | ⟨h₁,h₂,he⟩
  · by_cases hn : w = []
    · subst hn
      have hself : ∀ x : Bytes, compare x x = .eq := fun _ => Std.ReflCmp.compare_self
      rw [List.append_nil,hself,hself]
      refine ⟨fun _ w' hn' hw => absurd ?_ hn',fun _ => rfl⟩
      rcases hw with hw | hw <;> simpa using hw
    · rw [he,compare_runs_on u hn]
      constructor
      · rintro h w' hn' (hw | hw)
        · rwa [← List.append_cancel_left hw]
        · simp [hn] at hw
      · exact fun h => h w hn (.inl rfl)
  · have hgt : compare (v ++ w) v = .gt := by
      rw [compareBytes_swap v (v ++ w),compare_runs_on v hn]
      rfl
    have hiff : compare (w ++ s) s = .gt ↔ compare s (w ++ s) = .lt := by
      rw [compareBytes_swap s (w ++ s)]
      cases compare s (w ++ s) <;> simp
    rw [he,hgt,hiff]
    constructor
    · rintro h w' hn' (hw | hw)
      · simp [hn] at hw
      · rwa [← List.append_cancel_left hw]
    · exact fun h => h w hn (.inr rfl)
  · refine ⟨fun _ w _ hw => ?_,fun _ => he⟩
    rcases hw with hw | hw
    · exact absurd hw (h₁ w)
    · exact absurd hw (h₂ w)

/-- No key of `us` runs on into another one with bytes that do not put it behind the suffix. -/
def SuffixBelow (suffix : Bytes) (us : List Bytes) : Prop :=
  ∀ u ∈ us, ∀ w, w ≠ [] → u ++ w ∈ us → compare suffix (w ++ suffix) = .lt

section
variable {suffix : Bytes} (hs : suffix.length = 8) (us : List Bytes)
include hs

theorem compareKeys_suffixed (u v : Bytes) :
    compareKeys (u ++ suffix) (v ++ suffix) = compare u v := by
  have hc : compare (ofLe suffix) (ofLe suffix) = .eq := Std.ReflCmp.compare_self
  rw [compareKeys,userKey_append u suffix hs,userKey_append v suffix hs,
    packed_append u suffix hs,packed_append v suffix hs,hc]
  cases compare u v <;> rfl

theorem comparators_agree_iff :
    (∀ u ∈ us, ∀ v ∈ us,
      compareWithPrefix bytewiseComparator (u ++ suffix) (v ++ suffix) =
        compareWithPrefix internalKeyComparator (u ++ suffix) (v ++ suffix)) ↔
      SuffixBelow suffix us := by
  have hw : ∀ u : Bytes, WellFormed (u ++ suffix) := by
    intro u
    simp [WellFormed,hs]
  have hpair : ∀ u v : Bytes,
      compareWithPrefix bytewiseComparator (u ++ suffix) (v ++ suffix) =
        compareWithPrefix internalKeyComparator (u ++ suffix) (v ++ suffix) ↔
      ∀ w, w ≠ [] → v = u ++ w ∨ u = v ++ w → compare suffix (w ++ suffix) = .lt := by
    intro u v
    rw [bytewiseComparator_orders.compareWithPrefix_eq trivial trivial,
      internalKeyComparator_orders.compareWithPrefix_eq (hw u) (hw v),Except.ok.injEq,
      compareKeys_suffixed hs,compare_suffixed_iff]
  constructor
  · intro h u hu w hn hv
    exact (hpair u (u ++ w)).mp (h u hu (u ++ w) hv) w hn (.inl rfl)
  · intro h u hu v hv
    refine (hpair u v).mpr (fun w hn hw => ?_)
    rcases hw with rfl | rfl
    · exact h u hu w hn hv
    · exact h v hv w hn hu

end

section
variable {S : Type} [MergeSource S] {sources : List S} {ls : List (List Entry)}

theorem merge_by {C : KeyComparator} {D : Bytes → Prop} {cmp : Bytes → Bytes → Ordering}
    (hC : OrdersAs C D cmp) (hy : List.Forall₂ Yields sources ls)
    (hD : ∀ e ∈ ls.flatten, D e.1) : ∃ m m', LoserTreeMerger.new C sources = .ok m ∧
      ∀ fuel, ls.flatten.length < fuel → LoserTreeMerger.run C fuel m =
        .ok (((bracketOf ls).emits (entryLt cmp)).map Prod.snd,m') := by
  have hs : (bracketOf ls).SafeRun (entryLt cmp) (fun e => D e.1) :=
    Bracket.safeRun_of_contents (fun x hx => hD x.2 (by
      rw [← contents_bracketOf]
      exact List.mem_map_of_mem hx))
  obtain ⟨m,H,hnew,htr⟩ := new_tracks hC sources hy (hs 0)
  obtain ⟨m',hrun⟩ := htr.run hC hs
  exact ⟨m,m',hnew,fun fuel hf => hrun fuel (by rwa [length_contents_bracketOf])⟩

/-- The two comparators agree on keys of one suffix just when the suffix is below what follows a
user key, and then they merge any sources of such keys alike, sorted or not. -/
theorem bytewise_merges {suffix : Bytes} (hs : suffix.length = 8)
    (hy : List.Forall₂ Yields sources ls)
    (hk : ∀ e ∈ ls.flatten, e.1 = userKey e.1 ++ suffix) :
    ((∀ a ∈ ls.flatten, ∀ b ∈ ls.flatten, compareWithPrefix bytewiseComparator a.1 b.1 =
        compareWithPrefix internalKeyComparator a.1 b.1) ↔
      SuffixBelow suffix (ls.flatten.map (fun e => userKey e.1))) ∧
    (SuffixBelow suffix (ls.flatten.map (fun e => userKey e.1)) →
      ∃ m m₁ b b₁ out, LoserTreeMerger.new internalKeyComparator sources = .ok m ∧
        LoserTreeMerger.new bytewiseComparator sources = .ok b ∧
        ∀ fuel, ls.flatten.length < fuel →
          LoserTreeMerger.run internalKeyComparator fuel m = .ok (out,m₁) ∧
          LoserTreeMerger.run bytewiseComparator fuel b = .ok (out,b₁)) := by
  have hiff : (∀ a ∈ ls.flatten, ∀ b ∈ ls.flatten, compareWithPrefix bytewiseComparator a.1 b.1 =
      compareWithPrefix internalKeyComparator a.1 b.1) ↔
      SuffixBelow suffix (ls.flatten.map (fun e => userKey e.1)) := by
    rw [← comparators_agree_iff hs]
    constructor
    · intro h u hu v hv
      obtain ⟨a,ha,rfl⟩ := List.mem_map.mp hu
      obtain ⟨b,hb,rfl⟩ := List.mem_map.mp hv
      rw [← hk a ha,← hk b hb]
      exact h a ha b hb
    · intro h a ha b hb
      rw [hk a ha,hk b hb]
      exact h _ (List.mem_map_of_mem ha) _ (List.mem_map_of_mem hb)
  have hwf : ∀ e ∈ ls.flatten, WellFormed e.1 := by
    intro e he
    rw [WellFormed,hk e he,List.length_append,hs]
    omega
  refine ⟨hiff,fun hb => ?_⟩
  obtain ⟨m,m₁,hnew,hrun⟩ := merge_by internalKeyComparator_orders hy hwf
  obtain ⟨b,b₁,hnew',hrun'⟩ := merge_by bytewiseComparator_orders hy (fun _ _ => trivial)
  have hsame : (bracketOf ls).emits (entryLt compare) = (bracketOf ls).emits keyLt := by
    refine Bracket.emits_congr (fun x hx y hy => ?_)
    have hmem : ∀ {z}, z ∈ (bracketOf ls).contents → z.2 ∈ ls.flatten := by
      intro z hz
      rw [← contents_bracketOf]
      exact List.mem_map_of_mem hz
    have hc := hiff.mpr hb x.2 (hmem hx) y.2 (hmem hy)
    rw [bytewiseComparator_orders.compareWithPrefix_eq trivial trivial,
      internalKeyComparator_orders.compareWithPrefix_eq (hwf _ (hmem hx)) (hwf _ (hmem hy)),
      Except.ok.injEq] at hc
    rw [keyLt,entryLt,entryLt,hc]
  rw [hsame] at hrun'
  exact ⟨m,m₁,b,b₁,_,hnew,hnew',fun fuel hf => ⟨hrun fuel hf,hrun' fuel hf⟩⟩

end

def sameLength : List (List Entry) :=
  [[([0,1] ++ leBytes 8 1,[1])],[([0,0] ++ leBytes 8 1,[2]),([0,2] ++ leBytes 8 1,[3])]]

def zeroBehind : List (List Entry) :=
  [[([97] ++ leBytes 8 1,[1])],[([97,0] ++ leBytes 8 1,[2])]]

theorem bytewise_merges_two :
    (∃ m m₁ b b₁ out,
      LoserTreeMerger.new internalKeyComparator (sameLength.map VecSource.new) = .ok m ∧
      LoserTreeMerger.new bytewiseComparator (sameLength.map VecSource.new) = .ok b ∧
      ∀ fuel, 3 < fuel →
        LoserTreeMerger.run internalKeyComparator fuel m = .ok (out,m₁) ∧
        LoserTreeMerger.run bytewiseComparator fuel b = .ok (out,b₁)) ∧
    ¬ ∀ a ∈ zeroBehind.flatten, ∀ b ∈ zeroBehind.flatten,
      compareWithPrefix bytewiseComparator a.1 b.1 =
        compareWithPrefix internalKeyComparator a.1 b.1 := by
  constructor
  · refine (bytewise_merges (leBytes_length 8 1) (vecSources_yield sameLength) (by decide)).2 ?_
    intro u hu w hn hw
    have hlen : ∀ v ∈ sameLength.flatten.map (fun e => userKey e.1), v.length = 2 := by decide
    have h₁ := hlen u hu
    have h₂ := hlen _ hw
    rw [List.length_append] at h₂
    exact absurd (List.length_eq_zero_iff.mp (by omega)) hn
  · intro h
    have hb := (bytewise_merges (leBytes_length 8 1) (vecSources_yield zeroBehind)
      (by decide)).1.mp h
    have hc := hb [97] (by decide) [0] (by decide) (by decide)
    revert hc
    decide

end SstCompactor
