import SstCompactor.Kway.Bracket
import Mathlib.Data.List.Nodup

set_option autoImplicit false

namespace Kway
namespace Bracket
variable {α : Type} {lt : α → α → Bool} {d : α → Bool} {t : Bracket α}

theorem length_fronts_le (t : Bracket α) : t.fronts.length ≤ t.contents.length := by
  induction t with
  | leaf i l => cases l <;> simp
  | node side a b iha ihb =>
    simp only [fronts_node,contents_node,List.length_append]
    omega

theorem fronts_mapLists {g : List α → List α} (hg : Keeps d g)
    (h : ∀ x ∈ t.fronts, d x = true) : (t.mapLists g).fronts = t.fronts := by
  induction t with
  | leaf i l =>
    cases l with
    | nil => rw [mapLists,hg.nil]
    | cons x l => simp [mapLists,hg.cons x l (h x (by simp))]
  | node side a b iha ihb =>
    rw [mapLists,fronts_node,fronts_node,iha (fun x hx => h x (by simp [hx])),
      ihb (fun x hx => h x (by simp [hx]))]

theorem contents_single (h : t.fronts.length ≤ 1) : ∃ i, ∀ x ∈ t.contents, x.1 = i := by
  induction t with
  | leaf i l => exact ⟨i,by simp⟩
  | node side a b iha ihb =>
    rw [fronts_node,List.length_append] at h
    obtain ⟨i,ha⟩ := iha (by omega)
    obtain ⟨j,hb⟩ := ihb (by omega)
    by_cases hfa : a.fronts = []
    · refine ⟨j,fun x hx => hb x ?_⟩
      simpa [fronts_nil.mp hfa] using hx
    · have hpos := List.length_pos_iff.mpr hfa
      have hfb : b.fronts = [] := List.length_eq_zero_iff.mp (by omega)
      refine ⟨i,fun x hx => ha x ?_⟩
      simpa [fronts_nil.mp hfb] using hx

theorem safeRun_single {D : α → Prop} (h : t.fronts.length ≤ 1) : t.SafeRun lt D := by
  induction t using emits_induction lt with
  | none t hf => exact safeRun_empty ((front_none lt).mp hf)
  | some t x hf ih =>
    exact safeRun_iff.mpr ⟨safe_iff.mpr (.inl h),ih (contents_pop_single h hf).2⟩

variable (lt) in
theorem emits_ne_nil (h : t.contents ≠ []) : t.emits lt ≠ [] := by
  intro hz
  have hp := emits_perm lt t
  rw [hz] at hp
  exact h hp.nil_eq.symm

theorem mem_mapLists {g : List α → List α} {x : Nat × α} (h : x ∈ (t.mapLists g).contents) :
    ∃ l, (x.1,l) ∈ t.leaves ∧ x.2 ∈ g l := by
  obtain ⟨l,hl,hx⟩ := mem_contents.mp h
  rw [leaves_mapLists,List.mem_map] at hl
  obtain ⟨p,hp,heq⟩ := hl
  rw [Prod.mk.injEq] at heq
  rw [← heq.2] at hx
  exact ⟨p.2,by rw [← heq.1]; exact hp,hx⟩

variable (lt d t) in
/-- The list that hands out the last element, if each list ends before its first element that
does not pass. -/
def lastOfCut : Option Nat :=
  ((t.mapLists (List.takeWhile d)).emits lt).getLast?.map Prod.fst

/-- With two lists or more, all ready, the cut bracket moves as the bracket does. -/
theorem lastOfCut_pop (h : 1 < t.fronts.length) (hall : ∀ x ∈ t.fronts, d x = true)
    {x : Nat × α} (hf : t.front lt = some x) :
    (t.pop lt).lastOfCut lt d = t.lastOfCut lt d ∧
      ((t.pop lt).mapLists (List.takeWhile d)).contents ≠ [] := by
  obtain ⟨hfront,hpop⟩ := front_mapLists lt (keeps_takeWhile d) hall
  have hlen := length_fronts_le (t.mapLists (List.takeWhile d))
  rw [fronts_mapLists (keeps_takeWhile d) hall,length_pop (hfront.trans hf),hpop] at hlen
  have hne : ((t.pop lt).mapLists (List.takeWhile d)).contents ≠ [] := by
    intro hz
    rw [hz,List.length_nil] at hlen
    omega
  refine ⟨?_,hne⟩
  rw [lastOfCut,lastOfCut,emits_some (hfront.trans hf),hpop,
    List.getLast?_cons_of_ne_nil (emits_ne_nil lt hne)]

theorem contents_cut_subset (t : Bracket α) :
    (t.mapLists (List.takeWhile d)).contents ⊆ t.contents := by
  intro x hx
  obtain ⟨l,hl,hxl⟩ := mem_mapLists hx
  exact mem_contents.mpr ⟨l,hl,(List.takeWhile_sublist d).subset hxl⟩

theorem lastOfCut_ne (hn : (t.leaves.map Prod.fst).Nodup) {i : Nat} {y : α} {l : List α}
    (hl : (i,y :: l) ∈ t.leaves) (hy : d y = false) : t.lastOfCut lt d ≠ some i := by
  intro h
  rw [lastOfCut,Option.map_eq_some_iff] at h
  obtain ⟨x,hx,rfl⟩ := h
  have hm := (emits_perm lt _).subset (List.mem_of_getLast? hx)
  obtain ⟨l',hl',hxl⟩ := mem_mapLists hm
  have hpl : (x.1,l') = (x.1,y :: l) := List.inj_on_of_nodup_map hn hl' hl rfl
  obtain rfl : l' = y :: l := congrArg Prod.snd hpl
  rw [List.takeWhile_cons_of_neg (by simp [hy])] at hxl
  simp at hxl

theorem leaves_pop_fst (lt : α → α → Bool) (t : Bracket α) :
    (t.pop lt).leaves.map Prod.fst = t.leaves.map Prod.fst := by
  induction t with
  | leaf i l => rfl
  | node side a b iha ihb =>
    rw [pop]
    split <;> simp [leaves,iha,ihb]

theorem lastOfCut_single {i : Nat} (h : ∀ x ∈ t.contents, x.1 = i)
    (hne : (t.mapLists (List.takeWhile d)).contents ≠ []) : t.lastOfCut lt d = some i := by
  have hemits := emits_ne_nil lt hne
  have hmem := (emits_perm lt (t.mapLists (List.takeWhile d))).subset (List.getLast_mem hemits)
  rw [lastOfCut,List.getLast?_eq_getLast_of_ne_nil hemits,Option.map_some,
    h _ (contents_cut_subset t hmem)]

variable (lt d t) in
/-- One list is left, or all elements pass, or all that do not are in the list that hands out the
last element before them. -/
def Clears : Prop :=
  t.fronts.length ≤ 1 ∨ (∀ x ∈ t.contents, d x.2 = true) ∨
    ∃ i, t.lastOfCut lt d = some i ∧ ∀ x ∈ t.contents, d x.2 = false → x.1 = i

theorem clears_pop (h : 1 < t.fronts.length) (hall : ∀ x ∈ t.fronts, d x = true)
    {x : Nat × α} (hf : t.front lt = some x) : (t.pop lt).Clears lt d ↔ t.Clears lt d := by
  obtain ⟨hlast,hne⟩ := lastOfCut_pop h hall hf
  have hp := contents_pop hf
  have hx := hall x.2 (front_mem hf)
  have hpass : (∀ y ∈ t.contents, d y.2 = true) ↔ ∀ y ∈ (t.pop lt).contents, d y.2 = true := by
    simp [hp.mem_iff,hx]
  have hfail : ∀ i, (∀ y ∈ t.contents, d y.2 = false → y.1 = i) ↔
      ∀ y ∈ (t.pop lt).contents, d y.2 = false → y.1 = i := by
    simp [hp.mem_iff,hx]
  rw [Clears,Clears,hlast]
  simp only [hpass,hfail]
  constructor
  · rintro (hsingle | h)
    · obtain ⟨i,hi⟩ := contents_single hsingle
      exact .inr (.inr ⟨i,hlast ▸ lastOfCut_single hi hne,fun y hy _ => hi y hy⟩)
    · exact .inr h
  · rintro (hsingle | h)
    · omega
    · exact .inr h

theorem not_clears (hn : (t.leaves.map Prod.fst).Nodup) (h : 1 < t.fronts.length) {y : α}
    (hy : y ∈ t.fronts) (hbad : d y = false) : ¬ t.Clears lt d := by
  obtain ⟨⟨i,l⟩,hl,hhead⟩ := List.mem_filterMap.mp hy
  obtain ⟨l,rfl⟩ := List.head?_eq_some_iff.mp hhead
  have hmem : (i,y) ∈ t.contents := mem_contents.mpr ⟨_,hl,List.mem_cons_self⟩
  rintro (hsingle | hpass | ⟨j,hlast,hfail⟩)
  · omega
  · have hgood := hpass _ hmem
    simp [hbad] at hgood
  · obtain rfl : i = j := hfail _ hmem hbad
    exact lastOfCut_ne hn hl hbad hlast

theorem safeRun_iff_clears (hn : (t.leaves.map Prod.fst).Nodup) :
    t.SafeRun lt (fun x => d x = true) ↔ t.Clears lt d := by
  induction t using emits_induction lt with
  | none t hf =>
    have hc := (front_none lt).mp hf
    simp [Clears,safeRun_empty hc,fronts_nil.mpr hc]
  | some t x hf ih =>
    by_cases hone : t.fronts.length ≤ 1
    · simp [Clears,safeRun_single hone,hone]
    · rw [safeRun_iff,safe_iff]
      by_cases hall : ∀ y ∈ t.fronts, d y = true
      · rw [ih (by rwa [leaves_pop_fst]),clears_pop (by omega) hall hf]
        exact and_iff_right (.inr hall)
      · obtain ⟨y,hy,hbad⟩ : ∃ y ∈ t.fronts, d y = false := by simpa using hall
        exact iff_of_false (fun h => h.1.elim hone hall) (not_clears hn (by omega) hy hbad)

end Bracket
end Kway
