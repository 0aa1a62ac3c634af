import Mathlib.Data.List.Basic

/-!
A tournament as a tree of two-way merges. Each inner node remembers from which half it took
last, and in a tie takes from the other one; before its first match it takes from the right.
This fixes the whole order in which the elements leave, ties included.
-/

set_option autoImplicit false

namespace Kway

/-- The flag of a node is set when it took from its left half last. -/
inductive Bracket (α : Type) where
  | leaf : Nat → List α → Bracket α
  | node : Bool → Bracket α → Bracket α → Bracket α

namespace Bracket
variable {α : Type} (lt : α → α → Bool)

def takesLeft (side : Bool) : Option (Nat × α) → Option (Nat × α) → Bool
  | some x, some y => if side then lt x.2 y.2 else !lt y.2 x.2
  | some _, none => true
  | none, _ => false

/-- The next element to leave, with the number of its list. -/
def front : Bracket α → Option (Nat × α)
  | .leaf i l => l.head?.map (fun x => (i,x))
  | .node side a b => if takesLeft lt side a.front b.front then a.front else b.front

def pop : Bracket α → Bracket α
  | .leaf i l => .leaf i l.tail
  | .node side a b =>
    if takesLeft lt side (a.front lt) (b.front lt) then .node true a.pop b
    else .node false a b.pop

def leaves : Bracket α → List (Nat × List α)
  | .leaf i l => [(i,l)]
  | .node _ a b => a.leaves ++ b.leaves

def contents (t : Bracket α) : List (Nat × α) :=
  t.leaves.flatMap (fun p => p.2.map (fun x => (p.1,x)))

def fronts (t : Bracket α) : List α := t.leaves.filterMap (fun p => p.2.head?)

def emit : Nat → Bracket α → List (Nat × α)
  | 0, _ => []
  | n+1, t =>
    match t.front lt with
    | none => []
    | some x => x :: emit n (t.pop lt)

def emits (t : Bracket α) : List (Nat × α) := emit lt t.contents.length t

@[simp] theorem contents_leaf (i : Nat) (l : List α) :
    contents (.leaf i l) = l.map (fun x => (i,x)) := by simp [contents,leaves]

@[simp] theorem contents_node (side : Bool) (a b : Bracket α) :
    contents (.node side a b) = a.contents ++ b.contents := by simp [contents,leaves]

theorem mem_contents {t : Bracket α} {x : Nat × α} :
    x ∈ t.contents ↔ ∃ l, (x.1,l) ∈ t.leaves ∧ x.2 ∈ l := by
  rw [contents,List.mem_flatMap]
  constructor
  · rintro ⟨p,hp,hx⟩
    obtain ⟨y,hy,rfl⟩ := List.mem_map.mp hx
    exact ⟨p.2,hp,hy⟩
  · rintro ⟨l,hl,hx⟩
    exact ⟨_,hl,List.mem_map.mpr ⟨x.2,hx,rfl⟩⟩

@[simp] theorem fronts_leaf (i : Nat) (l : List α) : fronts (.leaf i l) = l.head?.toList := by
  cases l <;> rfl

@[simp] theorem fronts_node (side : Bool) (a b : Bracket α) :
    fronts (.node side a b) = a.fronts ++ b.fronts := by simp [fronts,leaves]

variable {lt}

variable (lt) in
theorem front_none {t : Bracket α} : t.front lt = none ↔ t.contents = [] := by
  induction t with
  | leaf i l => cases l <;> simp [front]
  | node side a b iha ihb =>
    rw [front,contents_node,List.append_eq_nil_iff,← iha,← ihb]
    cases a.front lt with
    | none => simp [takesLeft]
    | some x =>
      cases b.front lt with
      | none => simp [takesLeft]
      | some y =>
        generalize takesLeft lt side (some x) (some y) = c
        cases c <;> simp

theorem fronts_nil {t : Bracket α} : t.fronts = [] ↔ t.contents = [] := by
  induction t with
  | leaf i l => cases l <;> simp
  | node side a b iha ihb => simp [iha,ihb]

theorem contents_pop {t : Bracket α} {x : Nat × α} (h : t.front lt = some x) :
    t.contents.Perm (x :: (t.pop lt).contents) := by
  induction t with
  | leaf i l =>
    cases l with
    | nil => simp [front] at h
    | cons y l =>
      obtain rfl : (i,y) = x := by simpa [front] using h
      simp [pop]
  | node side a b iha ihb =>
    simp only [front,pop] at h ⊢
    split at h
    · rename_i ht
      simpa [ht] using (iha h).append_right b.contents
    · rename_i ht
      have hp := (ihb h).append_left a.contents
      simpa [ht] using hp.trans List.perm_middle

theorem length_pop {t : Bracket α} {x : Nat × α} (h : t.front lt = some x) :
    t.contents.length = (t.pop lt).contents.length+1 := by
  simpa using (contents_pop h).length_eq

theorem emits_none {t : Bracket α} (h : t.front lt = none) : t.emits lt = [] := by
  rw [emits,(front_none lt).mp h]
  rfl

theorem emits_some {t : Bracket α} {x : Nat × α} (h : t.front lt = some x) :
    t.emits lt = x :: (t.pop lt).emits lt := by
  rw [emits,length_pop h,emit,h]
  rfl

variable (lt) in
/-- The rule by which one argues about all elements as they leave. -/
theorem emits_induction {motive : Bracket α → Prop}
    (none : ∀ t, t.front lt = none → motive t)
    (some : ∀ t x, t.front lt = some x → motive (t.pop lt) → motive t) (t : Bracket α) :
    motive t := by
  generalize hn : t.contents.length = n
  induction n generalizing t with
  | zero => exact none t ((front_none lt).mpr (List.length_eq_zero_iff.mp hn))
  | succ n ih =>
    cases hf : t.front lt with
    | none =>
      rw [(front_none lt).mp hf] at hn
      simp at hn
    | some x =>
      have hl := length_pop hf
      exact some t x hf (ih (t.pop lt) (by omega))

theorem front_mem {t : Bracket α} {x : Nat × α} (h : t.front lt = some x) : x.2 ∈ t.fronts := by
  induction t with
  | leaf i l =>
    obtain ⟨y,hy,rfl⟩ := Option.map_eq_some_iff.mp h
    simp [hy]
  | node side a b iha ihb =>
    rw [front] at h
    rw [fronts_node,List.mem_append]
    split at h
    · exact .inl (iha h)
    · exact .inr (ihb h)

variable (lt) in
theorem emits_perm (t : Bracket α) : (t.emits lt).Perm t.contents := by
  induction t using emits_induction lt with
  | none t hf => rw [emits_none hf,(front_none lt).mp hf]
  | some t x hf ih => rw [emits_some hf]; exact (ih.cons x).trans (contents_pop hf).symm

variable (lt) in
/-- Whenever two elements are compared to find the next one, both are in `D`. -/
def Safe (D : α → Prop) : Bracket α → Prop
  | .leaf _ _ => True
  | .node _ a b => a.Safe D ∧ b.Safe D ∧
      ∀ x y, a.front lt = some x → b.front lt = some y → D x.2 ∧ D y.2

variable (lt) in
def popN (t : Bracket α) : Nat → Bracket α
  | 0 => t
  | n+1 => (t.pop lt).popN n

variable (lt) in
def SafeRun (D : α → Prop) (t : Bracket α) : Prop := ∀ n, (t.popN lt n).Safe lt D

theorem safeRun_iff {D : α → Prop} {t : Bracket α} :
    t.SafeRun lt D ↔ t.Safe lt D ∧ (t.pop lt).SafeRun lt D := by
  constructor
  · exact fun h => ⟨h 0,fun n => h (n+1)⟩
  · rintro ⟨h₀,h⟩ n
    cases n with
    | zero => exact h₀
    | succ n => exact h n

theorem safe_iff {D : α → Prop} {t : Bracket α} :
    t.Safe lt D ↔ t.fronts.length ≤ 1 ∨ ∀ x ∈ t.fronts, D x := by
  induction t with
  | leaf i l => cases l <;> simp [Safe]
  | node side a b iha ihb =>
    have hne : ∀ t : Bracket α, t.fronts ≠ [] → ∃ x, t.front lt = some x := by
      intro t ht
      rw [Ne,fronts_nil,← front_none lt] at ht
      exact Option.ne_none_iff_exists'.mp ht
    have hnone : ∀ t : Bracket α, t.fronts = [] → t.front lt = none :=
      fun t ht => (front_none lt).mpr (fronts_nil.mp ht)
    rw [Safe,iha,ihb,fronts_node,List.length_append]
    rcases eq_or_ne a.fronts [] with ha | ha
    · simp [ha,hnone a ha]
    rcases eq_or_ne b.fronts [] with hb | hb
    · simp [hb,hnone b hb]
    obtain ⟨x,hx⟩ := hne a ha
    obtain ⟨y,hy⟩ := hne b hb
    have hla := List.length_pos_iff.mpr ha
    have hlb := List.length_pos_iff.mpr hb
    -- A half with one front has the one that is compared.
    have hone : ∀ (t : Bracket α) (z : Nat × α), t.front lt = some z → D z.2 →
        (t.fronts.length ≤ 1 ∨ ∀ w ∈ t.fronts, D w) → ∀ w ∈ t.fronts, D w := by
      intro t z hz hd ht w hw
      rcases ht with ht | ht
      · obtain ⟨v,hv⟩ := List.length_eq_one_iff.mp
          (Nat.le_antisymm ht (List.length_pos_of_mem hw))
        have hz' := front_mem hz
        rw [hv,List.mem_singleton] at hz' hw
        rw [hw,← hz']
        exact hd
      · exact ht w hw
    constructor
    · rintro ⟨hsa,hsb,hxy⟩
      obtain ⟨hdx,hdy⟩ := hxy x y hx hy
      right
      intro w hw
      rcases List.mem_append.mp hw with hw | hw
      · exact hone a x hx hdx hsa w hw
      · exact hone b y hy hdy hsb w hw
    · intro h
      have hall : ∀ w ∈ a.fronts ++ b.fronts, D w := by
        rcases h with h | h
        · omega
        · exact h
      refine ⟨.inr (fun w hw => hall w (by simp [hw])),.inr (fun w hw => hall w (by simp [hw])),?_⟩
      intro u v hu hv
      exact ⟨hall u.2 (by simp [front_mem hu]),hall v.2 (by simp [front_mem hv])⟩

theorem pop_empty {t : Bracket α} (h : t.contents = []) : (t.pop lt).contents = [] := by
  induction t with
  | leaf i l =>
    cases l with
    | nil => rfl
    | cons x l => simp at h
  | node side a b iha ihb =>
    rw [contents_node,List.append_eq_nil_iff] at h
    rw [pop]
    split
    · simp [iha h.1,h.2]
    · simp [h.1,ihb h.2]

theorem safeRun_empty {D : α → Prop} {t : Bracket α} (h : t.contents = []) :
    t.SafeRun lt D := by
  intro n
  induction n generalizing t with
  | zero => exact safe_iff.mpr (.inl (by simp [popN,fronts_nil.mpr h]))
  | succ n ih => exact ih (pop_empty h)

theorem mem_contents_of_fronts {t : Bracket α} {x : α} (h : x ∈ t.fronts) :
    ∃ i, (i,x) ∈ t.contents := by
  induction t with
  | leaf i l =>
    rw [fronts_leaf,Option.mem_toList] at h
    exact ⟨i,by simpa using List.mem_of_mem_head? h⟩
  | node side a b iha ihb =>
    rw [fronts_node,List.mem_append] at h
    rw [contents_node]
    rcases h with h | h
    · obtain ⟨i,hi⟩ := iha h
      exact ⟨i,by simp [hi]⟩
    · obtain ⟨i,hi⟩ := ihb h
      exact ⟨i,by simp [hi]⟩

theorem contents_pop_subset (t : Bracket α) : (t.pop lt).contents ⊆ t.contents := by
  cases hf : t.front lt with
  | none =>
    have h := (front_none lt).mp hf
    rw [pop_empty h,h]
    exact List.Subset.refl _
  | some x => exact fun y hy => (contents_pop hf).symm.subset (List.mem_cons_of_mem x hy)

theorem safeRun_of_contents {D : α → Prop} {t : Bracket α} (h : ∀ x ∈ t.contents, D x.2) :
    t.SafeRun lt D := by
  intro n
  induction n generalizing t with
  | zero =>
    refine safe_iff.mpr (.inr (fun x hx => ?_))
    obtain ⟨i,hi⟩ := mem_contents_of_fronts hx
    exact h _ hi
  | succ n ih => exact ih (fun x hx => h x (contents_pop_subset t hx))

theorem front_congr {lt' : α → α → Bool} {t : Bracket α}
    (h : ∀ x ∈ t.fronts, ∀ y ∈ t.fronts, lt x y = lt' x y) :
    t.front lt = t.front lt' ∧ t.pop lt = t.pop lt' := by
  induction t with
  | leaf i l => exact ⟨rfl,rfl⟩
  | node side a b iha ihb =>
    simp only [fronts_node,List.mem_append] at h
    obtain ⟨hfa,hpa⟩ := iha (fun x hx y hy => h x (.inl hx) y (.inl hy))
    obtain ⟨hfb,hpb⟩ := ihb (fun x hx y hy => h x (.inr hx) y (.inr hy))
    have htakes : takesLeft lt side (a.front lt) (b.front lt) =
        takesLeft lt' side (a.front lt) (b.front lt) := by
      cases ha : a.front lt with
      | none => rfl
      | some x =>
        cases hb : b.front lt with
        | none => rfl
        | some y =>
          have hx := front_mem ha
          have hy := front_mem hb
          simp only [takesLeft,h _ (.inl hx) _ (.inr hy),h _ (.inr hy) _ (.inl hx)]
    simp only [front,pop]
    rw [← hfa,← hfb,← hpa,← hpb,htakes]
    exact ⟨rfl,rfl⟩

theorem emits_congr {lt' : α → α → Bool} {t : Bracket α}
    (h : ∀ x ∈ t.contents, ∀ y ∈ t.contents, lt x.2 y.2 = lt' x.2 y.2) :
    t.emits lt = t.emits lt' := by
  induction t using emits_induction lt with
  | none t hf => rw [emits_none hf,emits_none ((front_none lt').mpr ((front_none lt).mp hf))]
  | some t x hf ih =>
    have hagree : ∀ x ∈ t.fronts, ∀ y ∈ t.fronts, lt x y = lt' x y := by
      intro x hx y hy
      obtain ⟨i,hi⟩ := mem_contents_of_fronts hx
      obtain ⟨j,hj⟩ := mem_contents_of_fronts hy
      exact h _ hi _ hj
    obtain ⟨hfront,hpop⟩ := front_congr hagree
    have hrest := ih (fun x hx y hy => h x (contents_pop_subset t hx) y (contents_pop_subset t hy))
    rw [emits_some hf,hrest,hpop]
    exact (emits_some (hfront.symm.trans hf)).symm

theorem contents_pop_single {t : Bracket α} (h : t.fronts.length ≤ 1) {x : Nat × α}
    (hf : t.front lt = some x) :
    t.contents = x :: (t.pop lt).contents ∧ (t.pop lt).fronts.length ≤ 1 := by
  induction t with
  | leaf i l =>
    cases l with
    | nil => simp [front] at hf
    | cons y l =>
      obtain rfl : (i,y) = x := by simpa [front] using hf
      exact ⟨by simp [pop],by cases l <;> simp [pop]⟩
  | node side a b iha ihb =>
    rw [fronts_node,List.length_append] at h
    rw [front] at hf
    rw [pop]
    split at hf
    · rename_i ht
      have hpos := List.length_pos_of_mem (front_mem hf)
      have hb : b.fronts = [] := List.length_eq_zero_iff.mp (by omega)
      obtain ⟨hc,hl⟩ := iha (by omega) hf
      rw [if_pos ht,contents_node,contents_node,fronts_node,hc,hb]
      exact ⟨rfl,by simpa using hl⟩
    · rename_i ht
      have hpos := List.length_pos_of_mem (front_mem hf)
      have ha : a.fronts = [] := List.length_eq_zero_iff.mp (by omega)
      obtain ⟨hc,hl⟩ := ihb (by omega) hf
      rw [if_neg ht,contents_node,contents_node,fronts_node,hc,ha,fronts_nil.mp ha]
      exact ⟨rfl,by simpa using hl⟩

theorem emits_single {t : Bracket α} (h : t.fronts.length ≤ 1) : t.emits lt = t.contents := by
  induction t using emits_induction lt with
  | none t hf => rw [emits_none hf,(front_none lt).mp hf]
  | some t x hf ih =>
    obtain ⟨hc,hl⟩ := contents_pop_single h hf
    rw [emits_some hf,ih hl,hc]

def mapLists (g : List α → List α) : Bracket α → Bracket α
  | .leaf i l => .leaf i (g l)
  | .node side a b => .node side (a.mapLists g) (b.mapLists g)

/-- `g` leaves out no element that passes `p` from the front of a list. -/
structure Keeps (p : α → Bool) (g : List α → List α) : Prop where
  nil : g [] = []
  cons : ∀ x l, p x = true → g (x :: l) = x :: g l

theorem keeps_filter (p : α → Bool) : Keeps p (List.filter p) :=
  ⟨rfl,fun _ _ hx => List.filter_cons_of_pos hx⟩

theorem keeps_takeWhile (p : α → Bool) : Keeps p (List.takeWhile p) :=
  ⟨rfl,fun _ _ hx => List.takeWhile_cons_of_pos hx⟩

theorem leaves_mapLists (g : List α → List α) (t : Bracket α) :
    (t.mapLists g).leaves = t.leaves.map (fun l => (l.1,g l.2)) := by
  induction t with
  | leaf i l => rfl
  | node side a b iha ihb => simp [mapLists,leaves,iha,ihb]

variable (lt) in
theorem front_mapLists {p : α → Bool} {g : List α → List α} (hg : Keeps p g) {t : Bracket α}
    (h : ∀ x ∈ t.fronts, p x = true) :
    (t.mapLists g).front lt = t.front lt ∧
      (t.mapLists g).pop lt = (t.pop lt).mapLists g := by
  induction t with
  | leaf i l =>
    cases l with
    | nil => simp [mapLists,front,pop,hg.nil]
    | cons x l =>
      have hx := h x (by simp)
      simp [mapLists,front,pop,hg.cons x l hx]
  | node side a b iha ihb =>
    obtain ⟨hfa,hpa⟩ := iha (fun x hx => h x (by simp [hx]))
    obtain ⟨hfb,hpb⟩ := ihb (fun x hx => h x (by simp [hx]))
    simp only [mapLists,front,pop,hfa,hfb,hpa,hpb,true_and]
    split <;> rfl

theorem contents_filter (p : α → Bool) (t : Bracket α) :
    (t.mapLists (List.filter p)).contents = t.contents.filter (fun x => p x.2) := by
  induction t with
  | leaf i l => simp [mapLists,List.filter_map,Function.comp_def]
  | node side a b iha ihb => simp [mapLists,iha,ihb]

theorem fronts_filter_length_le (p : α → Bool) (t : Bracket α) :
    (t.mapLists (List.filter p)).fronts.length ≤ t.fronts.length := by
  induction t with
  | leaf i l =>
    cases l with
    | nil => exact Nat.le_refl _
    | cons x l => cases h : ((x :: l).filter p).head? <;> simp [mapLists,h]
  | node side a b iha ihb =>
    simp only [mapLists,fronts_node,List.length_append]
    omega

/-- If elements are compared only when they pass, removing the others beforehand changes
nothing for those that pass. -/
theorem emits_filter {p : α → Bool} {t : Bracket α} (h : t.SafeRun lt (fun x => p x = true)) :
    (t.mapLists (List.filter p)).emits lt = (t.emits lt).filter (fun x => p x.2) := by
  induction t using emits_induction lt with
  | none t hf =>
    have hc : (t.mapLists (List.filter p)).contents = [] := by
      rw [contents_filter,(front_none lt).mp hf]
      rfl
    rw [emits_none hf,emits_none ((front_none lt).mpr hc)]
    rfl
  | some t x hf ih =>
    obtain ⟨hnow,hlater⟩ := safeRun_iff.mp h
    rcases safe_iff.mp hnow with hone | hall
    · rw [emits_single hone,
        emits_single (Nat.le_trans (fronts_filter_length_le p t) hone),contents_filter]
    · obtain ⟨hfront,hpop⟩ := front_mapLists lt (keeps_filter p) hall
      have hx := hall x.2 (front_mem hf)
      rw [emits_some (hfront.trans hf),hpop,ih hlater,emits_some hf,List.filter_cons,if_pos hx]

theorem head_emits (t : Bracket α) : (t.emits lt).head? = t.front lt := by
  cases hf : t.front lt with
  | none => rw [emits_none hf]; rfl
  | some x => rw [emits_some hf]; rfl

theorem emits_popN (t : Bracket α) (n : Nat) : (t.popN lt n).emits lt = (t.emits lt).drop n := by
  induction n generalizing t with
  | zero => rfl
  | succ n ih =>
    rw [popN,ih]
    cases hf : t.front lt with
    | none =>
      have he : (t.pop lt).emits lt = [] :=
        emits_none ((front_none lt).mpr (pop_empty ((front_none lt).mp hf)))
      rw [emits_none hf,he]
      simp
    | some x => rw [emits_some hf,List.drop_succ_cons]

/-- If there are two to choose from, the one of the half that did not hand out the last
element. -/
def pick {β : Type} (side : Bool) : Option β → Option β → Option β
  | some x, some y => some (if side then y else x)
  | some x, none => some x
  | none, y => y

theorem pick_map {β γ : Type} (f : β → γ) (side : Bool) (x y : Option β) :
    (pick side x y).map f = pick side (x.map f) (y.map f) := by
  cases x <;> cases y <;> cases side <;> rfl

/-- Of the elements at the front that are `best`, the one the flags point to. -/
def tieBreak (best : α → Bool) : Bracket α → Option (Nat × α)
  | .leaf i l => (l.head?.filter best).map (fun x => (i,x))
  | .node side a b => pick side (a.tieBreak best) (b.tieBreak best)

variable (lt) in
/-- When nothing at the front is before a `best` element, and only other `best` ones are level
with it, the next to leave is chosen by the flags alone. -/
theorem tieBreak_eq (best : α → Bool) (t : Bracket α)
    (htie : ∀ x ∈ t.fronts, ∀ y ∈ t.fronts, best x = true → best y = true → lt x y = false)
    (hlt : ∀ x ∈ t.fronts, ∀ y ∈ t.fronts, best x = true → best y = false →
      lt x y = true ∧ lt y x = false) :
    t.tieBreak best = (t.front lt).filter (fun x => best x.2) := by
  induction t with
  | leaf i l =>
    rw [tieBreak,front]
    cases l.head? with
    | none => rfl
    | some x => cases hx : best x <;> simp [Option.filter,hx]
  | node side a b iha ihb =>
    have hsub : ∀ x, x ∈ a.fronts ∨ x ∈ b.fronts → x ∈ (Bracket.node side a b).fronts := by
      intro x hx
      rwa [fronts_node,List.mem_append]
    have iha := iha (fun x hx y hy => htie x (hsub x (.inl hx)) y (hsub y (.inl hy)))
      (fun x hx y hy => hlt x (hsub x (.inl hx)) y (hsub y (.inl hy)))
    have ihb := ihb (fun x hx y hy => htie x (hsub x (.inr hx)) y (hsub y (.inr hy)))
      (fun x hx y hy => hlt x (hsub x (.inr hx)) y (hsub y (.inr hy)))
    rw [tieBreak,front,iha,ihb]
    cases hfa : a.front lt with
    | none => simp [takesLeft,pick]
    | some x =>
      cases hfb : b.front lt with
      | none => cases hx : best x.2 <;> simp [takesLeft,pick,Option.filter,hx]
      | some y =>
        have hx := hsub x.2 (.inl (front_mem hfa))
        have hy := hsub y.2 (.inr (front_mem hfb))
        cases hbx : best x.2 with
        | true =>
          cases hby : best y.2 with
          | true =>
            have h₁ := htie x.2 hx y.2 hy hbx hby
            have h₂ := htie y.2 hy x.2 hx hby hbx
            cases side <;> simp [takesLeft,pick,Option.filter,hbx,hby,h₁,h₂]
          | false =>
            obtain ⟨h₁,h₂⟩ := hlt x.2 hx y.2 hy hbx hby
            cases side <;> simp [takesLeft,pick,Option.filter,hbx,hby,h₁,h₂]
        | false =>
          cases hby : best y.2 with
          | true =>
            obtain ⟨h₁,h₂⟩ := hlt y.2 hy x.2 hx hby hbx
            cases side <;> simp [takesLeft,pick,Option.filter,hbx,hby,h₁,h₂]
          | false =>
            generalize takesLeft lt side (some x) (some y) = c
            cases c <;> simp [pick,Option.filter,hbx,hby]

end Bracket

end Kway
