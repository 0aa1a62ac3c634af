import SstCompactor.Merge.Cmp
import Mathlib.Data.List.Nodup
import Mathlib.Data.List.MinMax

set_option autoImplicit false

namespace SstCompactor

/-- Among the versions of its user key whose sequence number a reader may see, `e` is one,
and none is newer. -/
def newestWhere (visible : Nat → Bool) (es : List Entry) (e : Entry) : Bool :=
  visible (sequence e.1) && es.all (fun x =>
    !(userKey x.1 == userKey e.1 && visible (sequence x.1)) || packed x.1 ≤ packed e.1)

def always : Nat → Bool := fun _ => true

def upTo (s : Nat) : Nat → Bool := fun n => n ≤ s

def findVersion (visible : Nat → Bool) (es : List Entry) (u : Bytes) : Option Entry :=
  es.find? (fun e => userKey e.1 == u && newestWhere visible es e)

/-- The value a reader gets for `u`; a deletion mark means that there is none. -/
def read (visible : Nat → Bool) (es : List Entry) (u : Bytes) : Option Bytes :=
  match findVersion visible es u with
  | some e => if (valueType e.1).isTombstone then none else some e.2
  | none => none

theorem newestWhere_iff {visible : Nat → Bool} {es : List Entry} {e : Entry} :
    newestWhere visible es e = true ↔ visible (sequence e.1) = true ∧
      ∀ x ∈ es, userKey x.1 = userKey e.1 → visible (sequence x.1) = true →
        packed x.1 ≤ packed e.1 := by
  simp only [newestWhere,Bool.and_eq_true,List.all_eq_true,Bool.or_eq_true,
    Bool.not_eq_true',Bool.and_eq_false_iff,decide_eq_true_eq,beq_eq_false_iff_ne]
  refine and_congr_right (fun _ => forall₂_congr (fun x _ => ?_))
  cases hv : visible (sequence x.1) with
  | false => simp
  | true =>
    by_cases hu : userKey x.1 = userKey e.1
    · simp [hu]
    · simp [hu]

structure Distinct (es : List Entry) : Prop where
  wf : ∀ e ∈ es, WellFormed e.1
  nodup : (es.map Prod.fst).Nodup

theorem Distinct.perm {es fs : List Entry} (h : Distinct es) (hp : es.Perm fs) : Distinct fs :=
  ⟨fun e he => h.wf e (hp.mem_iff.mpr he),(hp.map Prod.fst).nodup_iff.mp h.nodup⟩

theorem Distinct.sublist {es fs : List Entry} (h : Distinct es) (hs : fs.Sublist es) :
    Distinct fs :=
  ⟨fun e he => h.wf e (hs.subset he),h.nodup.sublist (hs.map _)⟩

theorem Distinct.eq {es : List Entry} (h : Distinct es) {a b : Entry} (ha : a ∈ es) (hb : b ∈ es)
    (hu : userKey a.1 = userKey b.1) (hp : packed a.1 = packed b.1) : a = b :=
  List.inj_on_of_nodup_map h.nodup ha hb (key_ext (h.wf a ha) (h.wf b hb) hu hp)

theorem exists_newest (visible : Nat → Bool) {es : List Entry} {e : Entry} (he : e ∈ es)
    (hv : visible (sequence e.1) = true) :
    ∃ m ∈ es, userKey m.1 = userKey e.1 ∧ newestWhere visible es m = true := by
  generalize hl : es.filter (fun x => userKey x.1 == userKey e.1 && visible (sequence x.1)) = l
  have hmem : ∀ x, x ∈ l ↔ x ∈ es ∧ userKey x.1 = userKey e.1 ∧ visible (sequence x.1) = true := by
    intro x
    rw [← hl]
    simp
  have hel : e ∈ l := (hmem e).mpr ⟨he,rfl,hv⟩
  cases hm : l.argmax (fun x => packed x.1) with
  | none =>
    rw [List.argmax_eq_none.mp hm] at hel
    contradiction
  | some m =>
    obtain ⟨hmes,hmu,hmv⟩ := (hmem m).mp (List.argmax_mem hm)
    refine ⟨m,hmes,hmu,newestWhere_iff.mpr ⟨hmv,fun x hx hxu hxv => ?_⟩⟩
    exact List.le_of_mem_argmax (f:=fun x : Entry => packed x.1)
      ((hmem x).mpr ⟨hx,hxu.trans hmu,hxv⟩) hm

theorem findVersion_none {visible : Nat → Bool} {es : List Entry} {u : Bytes} :
    findVersion visible es u = none ↔
      ∀ e ∈ es, userKey e.1 = u → visible (sequence e.1) = false := by
  simp only [findVersion,List.find?_eq_none,Bool.and_eq_true,beq_iff_eq,not_and,
    Bool.not_eq_true]
  constructor
  · intro h e he hu
    by_contra hv
    obtain ⟨m,hm,hmu,hmn⟩ := exists_newest visible he (by simpa using hv)
    rw [h m hm (hmu.trans hu)] at hmn
    contradiction
  · intro h e he hu
    by_contra hn
    simp [newestWhere,h e he hu] at hn

theorem newestWhere_unique {visible : Nat → Bool} {es : List Entry} (h : Distinct es)
    {a b : Entry} (ha : a ∈ es) (hb : b ∈ es) (hu : userKey a.1 = userKey b.1)
    (hna : newestWhere visible es a = true) (hnb : newestWhere visible es b = true) : a = b := by
  obtain ⟨hva,hma⟩ := newestWhere_iff.mp hna
  obtain ⟨hvb,hmb⟩ := newestWhere_iff.mp hnb
  exact h.eq ha hb hu (Nat.le_antisymm (hmb a ha hu hva) (hma b hb hu.symm hvb))

theorem findVersion_some {visible : Nat → Bool} {es : List Entry} (h : Distinct es)
    {u : Bytes} {e : Entry} :
    findVersion visible es u = some e ↔
      e ∈ es ∧ userKey e.1 = u ∧ newestWhere visible es e = true := by
  constructor
  · intro hf
    have hp := List.find?_some hf
    simp only [Bool.and_eq_true,beq_iff_eq] at hp
    exact ⟨List.mem_of_find?_eq_some hf,hp⟩
  · intro hh
    obtain ⟨he,hu,hn⟩ := hh
    cases hf : findVersion visible es u with
    | none =>
      have hv := findVersion_none.mp hf e he hu
      rw [(newestWhere_iff.mp hn).1] at hv
      contradiction
    | some m =>
      have hp := List.find?_some hf
      simp only [Bool.and_eq_true,beq_iff_eq] at hp
      rw [newestWhere_unique h (List.mem_of_find?_eq_some hf) he (hp.1.trans hu.symm) hp.2 hn]

theorem newestWhere_perm {visible : Nat → Bool} {es fs : List Entry} (hp : es.Perm fs)
    (e : Entry) : newestWhere visible es e = newestWhere visible fs e := by
  rw [Bool.eq_iff_iff,newestWhere_iff,newestWhere_iff]
  simp only [hp.mem_iff]

theorem findVersion_perm {visible : Nat → Bool} {es fs : List Entry} (h : Distinct es)
    (hp : es.Perm fs) (u : Bytes) : findVersion visible es u = findVersion visible fs u := by
  cases hf : findVersion visible fs u with
  | none => exact findVersion_none.mpr (fun e he => findVersion_none.mp hf e (hp.mem_iff.mp he))
  | some e =>
    obtain ⟨he,hu,hn⟩ := (findVersion_some (h.perm hp)).mp hf
    exact (findVersion_some h).mpr ⟨hp.mem_iff.mpr he,hu,by rw [newestWhere_perm hp]; exact hn⟩

structure Ordered (es : List Entry) : Prop where
  wf : ∀ e ∈ es, WellFormed e.1
  sorted : es.Pairwise (fun a b => compareKeys a.1 b.1 = .lt)

theorem Ordered.distinct {es : List Entry} (h : Ordered es) : Distinct es := by
  refine ⟨h.wf,List.pairwise_map.mpr (h.sorted.imp ?_)⟩
  intro a b hab heq
  have hself : compareKeys b.1 b.1 = .eq := Std.ReflCmp.compare_self
  rw [heq,hself] at hab
  contradiction

theorem Ordered.sublist {es fs : List Entry} (h : Ordered es) (hs : fs.Sublist es) :
    Ordered fs :=
  ⟨fun e he => h.wf e (hs.subset he),h.sorted.sublist hs⟩

theorem packed_lt_of_lt {a b : Bytes} (hu : userKey a = userKey b)
    (h : compareKeys a b = .lt) : packed b < packed a := by
  rw [compareKeys_same_user hu] at h
  exact Nat.compare_eq_lt.mp h

/-- The versions of `u` that a reader may see, newest first. -/
def versionsOf (visible : Nat → Bool) (es : List Entry) (u : Bytes) : List Entry :=
  (es.filter (fun e => userKey e.1 == u && visible (sequence e.1))).mergeSort
    (fun a b => packed b.1 ≤ packed a.1)

theorem mem_versionsOf {visible : Nat → Bool} {es : List Entry} {u : Bytes} {e : Entry} :
    e ∈ versionsOf visible es u ↔
      e ∈ es ∧ userKey e.1 = u ∧ visible (sequence e.1) = true := by
  simp [versionsOf]

theorem versionsOf_eq_nil {es fs : List Entry} {u : Bytes} (h : versionsOf always es u = [])
    (hsub : fs ⊆ es) (visible : Nat → Bool) : versionsOf visible fs u = [] := by
  refine List.eq_nil_iff_forall_not_mem.mpr (fun e he => ?_)
  obtain ⟨he,hu,-⟩ := mem_versionsOf.mp he
  have hmem := mem_versionsOf.mpr ⟨hsub he,hu,show always (sequence e.1) = true from rfl⟩
  rw [h] at hmem
  contradiction

theorem versionsOf_sorted {es : List Entry} (h : Distinct es) (visible : Nat → Bool)
    (u : Bytes) : (versionsOf visible es u).Pairwise (fun a b => packed b.1 < packed a.1) := by
  have hle : (versionsOf visible es u).Pairwise (fun a b => packed b.1 ≤ packed a.1) := by
    refine (List.pairwise_mergeSort ?_ ?_ _).imp (by simp)
    · intro a b c hab hbc
      simp only [decide_eq_true_eq] at hab hbc ⊢
      exact Nat.le_trans hbc hab
    · intro a b
      simp only [Bool.or_eq_true,decide_eq_true_eq]
      exact Nat.le_total _ _
  have hnodup : (versionsOf visible es u).Nodup :=
    (List.mergeSort_perm _ _).nodup_iff.mpr ((h.nodup.of_map _).filter _)
  refine List.Pairwise.imp_of_mem ?_ (hle.and hnodup)
  intro a b ha hb hh
  obtain ⟨hab,hne⟩ := hh
  obtain ⟨ha,hua,-⟩ := mem_versionsOf.mp ha
  obtain ⟨hb,hub,-⟩ := mem_versionsOf.mp hb
  have hp : packed b.1 ≠ packed a.1 :=
    fun hp => hne (h.eq ha hb (hua.trans hub.symm) hp.symm)
  omega

theorem versionsOf_unique {es : List Entry} (h : Distinct es) {visible : Nat → Bool}
    {u : Bytes} {vs : List Entry} (hs : vs.Pairwise (fun a b => packed b.1 < packed a.1))
    (hm : ∀ e, e ∈ vs ↔ e ∈ es ∧ userKey e.1 = u ∧ visible (sequence e.1) = true) :
    versionsOf visible es u = vs := by
  have hnodup : ∀ {l : List Entry}, l.Pairwise (fun a b => packed b.1 < packed a.1) → l.Nodup :=
    fun hl => hl.imp (fun hlt heq => by rw [heq] at hlt; omega)
  have hv := versionsOf_sorted h visible u
  refine List.Perm.eq_of_pairwise (fun a b _ _ hab hba => ?_) hv hs ?_
  · omega
  · rw [List.perm_ext_iff_of_nodup (hnodup hv) (hnodup hs)]
    exact fun e => mem_versionsOf.trans (hm e).symm

theorem versionsOf_head {es : List Entry} (h : Distinct es) {visible : Nat → Bool} {u : Bytes}
    {e : Entry} : (versionsOf visible es u).head? = some e ↔
      e ∈ es ∧ userKey e.1 = u ∧ newestWhere visible es e = true := by
  have hsorted := versionsOf_sorted h visible u
  have hmem : ∀ x, x ∈ versionsOf visible es u ↔
      x ∈ es ∧ userKey x.1 = u ∧ visible (sequence x.1) = true := fun _ => mem_versionsOf
  generalize versionsOf visible es u = vs at hsorted hmem
  rw [newestWhere_iff]
  constructor
  · intro hh
    obtain ⟨rest,rfl⟩ := List.head?_eq_some_iff.mp hh
    obtain ⟨he,hu,hv⟩ := (hmem e).mp (by simp)
    refine ⟨he,hu,hv,fun x hx hxu hxv => ?_⟩
    rcases List.mem_cons.mp ((hmem x).mpr ⟨hx,hxu.trans hu,hxv⟩) with rfl | hx
    · exact Nat.le_refl _
    · exact Nat.le_of_lt ((List.pairwise_cons.mp hsorted).1 x hx)
  · intro hh
    obtain ⟨he,hu,hv,hn⟩ := hh
    cases vs with
    | nil => exact absurd ((hmem e).mpr ⟨he,hu,hv⟩) (by simp)
    | cons x rest =>
      obtain ⟨hx,hxu,hxv⟩ := (hmem x).mp (by simp)
      rcases List.mem_cons.mp ((hmem e).mpr ⟨he,hu,hv⟩) with rfl | her
      · rfl
      · have hlt := (List.pairwise_cons.mp hsorted).1 e her
        have hle := hn x hx (hxu.trans hu.symm) hxv
        omega

theorem newestWhere_of_always {visible : Nat → Bool} {es : List Entry} {e : Entry}
    (h : newestWhere always es e = true) (hv : visible (sequence e.1) = true) :
    newestWhere visible es e = true :=
  newestWhere_iff.mpr ⟨hv,fun x hx hu _ => (newestWhere_iff.mp h).2 x hx hu rfl⟩

theorem versionsOf_ordered {es : List Entry} (h : Ordered es) (u : Bytes) :
    versionsOf always es u = es.filter (fun e => userKey e.1 == u) := by
  refine versionsOf_unique h.distinct ?_ (fun e => by simp [always])
  refine (h.sorted.sublist List.filter_sublist).imp_of_mem (fun ha hb hab => ?_)
  simp only [List.mem_filter,beq_iff_eq] at ha hb
  exact packed_lt_of_lt (ha.2.trans hb.2.symm) hab

theorem findVersion_eq_head {es : List Entry} (h : Distinct es) (visible : Nat → Bool)
    (u : Bytes) : findVersion visible es u = (versionsOf visible es u).head? :=
  Option.ext (fun _ => (findVersion_some h).trans (versionsOf_head h).symm)

theorem userKey_between {a b c : Bytes} (hab : compareKeys a b = .lt)
    (hbc : compareKeys b c = .lt) (hac : userKey a = userKey c) : userKey b = userKey c := by
  have h₁ := compare_user_of_le (show compareKeys a b ≠ .gt by rw [hab]; decide)
  have h₂ := compare_user_of_le (show compareKeys b c ≠ .gt by rw [hbc]; decide)
  rw [hac] at h₁
  cases hc : compare (userKey b) (userKey c) with
  | eq => exact Std.LawfulEqOrd.eq_of_compare hc
  | gt => exact absurd hc h₂
  | lt =>
    rw [compareBytes_swap (userKey b) (userKey c),hc] at h₁
    exact absurd rfl h₁

end SstCompactor
