import SstCompactor.Merge.LoserTree
import Mathlib.Data.List.Induction
import Mathlib.Data.List.Nodup

/-!
The binary-heap merger. `std::collections::BinaryHeap` is a parameter known by its
contract; the merger keeps a copy of each source's front key in it.
-/

set_option autoImplicit false

namespace SstCompactor
open Kway

structure HeapEntry where
  sourceIdx : Nat
  key : Bytes
  deriving DecidableEq, Repr

/-- `Ord for HeapEntry`: reversed, so that the greatest entry has the smallest key. -/
def HeapEntry.cmp (C : KeyComparator) (a b : HeapEntry) : Exec Ordering :=
  compareWithPrefix C b.key a.key

/-- The two operations of `BinaryHeap` the merger uses, on the elements a heap holds. -/
structure BinaryHeap where
  push : List HeapEntry → HeapEntry → List HeapEntry
  pop : List HeapEntry → Option (HeapEntry × List HeapEntry)

/-- What the library documents: `push` adds one element, `pop` removes and returns one
that no element exceeds, and `pop` fails only on an empty heap. -/
structure BinaryHeap.Lawful (B : BinaryHeap) (cmp : HeapEntry → HeapEntry → Exec Ordering) :
    Prop where
  push_perm : ∀ h e, (B.push h e).Perm (e :: h)
  pop_none : ∀ h, B.pop h = none → h = []
  pop_perm : ∀ h e h', B.pop h = some (e,h') → (e :: h').Perm h
  pop_max : ∀ h e h', B.pop h = some (e,h') → ∀ x ∈ h, cmp x e ≠ .ok .gt

structure HeapMerger (S : Type) where
  sources : List S
  heap : List HeapEntry

namespace HeapMerger

variable {S : Type} [MergeSource S] (B : BinaryHeap)

/-- `if let Some((k, _)) = sources[idx].peek() { heap.push(..) }`. -/
def pushFront (heap : List HeapEntry) (idx : Nat) (front : Option Entry) : List HeapEntry :=
  match front with
  | some (k,_) => B.push heap ⟨idx,k⟩
  | none => heap

def fill : (idx : Nat) → List S → List HeapEntry → Exec (List HeapEntry)
  | _, [], heap => .ok heap
  | idx, s :: rest, heap => do
      let front ← MergeSource.peek s
      fill (idx+1) rest (pushFront B heap idx front)

def new (sources : List S) : Exec (HeapMerger S) := do
  let heap ← fill B 0 sources []
  pure ⟨sources,heap⟩

/-- The entries `f` is called with, in order, and the merger afterwards. -/
def run : (fuel : Nat) → HeapMerger S → Exec (List Entry × HeapMerger S)
  | 0, _ => .error .outOfFuel
  | fuel+1, m =>
    match B.pop m.heap with
    | none => .ok ([],m)
    | some (top,heap) => do
        let s ← index m.sources top.sourceIdx
        let kv ← expect (← MergeSource.peek s) "heap entry stale"
        let s := MergeSource.advance s
        let front ← MergeSource.peek s
        let heap := pushFront B heap top.sourceIdx front
        let (rest,m) ← run fuel ⟨m.sources.set top.sourceIdx s,heap⟩
        pure (kv :: rest,m)

end HeapMerger

section
variable {S : Type} [MergeSource S] {C : KeyComparator} {D : Bytes → Prop}
  {cmp : Bytes → Bytes → Ordering} {B : BinaryHeap}

structure Fronts (heap : List HeapEntry) (ls : List (List Entry)) : Prop where
  front_of_mem : ∀ e ∈ heap, front ls e.sourceIdx = some e.key
  mem_of_front : ∀ i k, front ls i = some k → ⟨i,k⟩ ∈ heap
  nodup : (heap.map HeapEntry.sourceIdx).Nodup

theorem Fronts.perm {heap heap' : List HeapEntry} {ls : List (List Entry)} (h : Fronts heap ls)
    (hp : heap'.Perm heap) : Fronts heap' ls where
  front_of_mem := fun e he => h.front_of_mem e (hp.subset he)
  mem_of_front := fun i k hf => hp.symm.subset (h.mem_of_front i k hf)
  nodup := (hp.map HeapEntry.sourceIdx).nodup_iff.mpr h.nodup

theorem pushFront_perm (hB : B.Lawful (HeapEntry.cmp C)) (heap : List HeapEntry) (idx : Nat)
    (front : Option Entry) : (HeapMerger.pushFront B heap idx front).Perm
      ((front.map (fun x => HeapEntry.mk idx x.1)).toList ++ heap) := by
  cases front with
  | none => exact List.Perm.refl _
  | some y => exact hB.push_perm heap ⟨idx,y.1⟩

theorem Fronts.next {heap : List HeapEntry} {ls : List (List Entry)} {top : HeapEntry}
    (h : Fronts (top :: heap) ls) {e : Entry} {rest : List Entry}
    (hl : ls[top.sourceIdx]? = some (e :: rest)) :
    Fronts ((rest.head?.map (fun x => HeapEntry.mk top.sourceIdx x.1)).toList ++ heap)
      (ls.set top.sourceIdx rest) := by
  obtain ⟨hlt,-⟩ := List.getElem?_eq_some_iff.mp hl
  have hself : front (ls.set top.sourceIdx rest) top.sourceIdx = rest.head?.map Prod.fst := by
    simp [front,hlt]
  have hnd := List.nodup_cons.mp h.nodup
  have hother : ∀ x ∈ heap, x.sourceIdx ≠ top.sourceIdx := by
    intro x hx he
    exact hnd.1 (List.mem_map.mpr ⟨x,hx,he⟩)
  refine ⟨?_,?_,?_⟩
  · intro x hx
    rcases List.mem_append.mp hx with hx | hx
    · cases hr : rest.head? with
      | none => simp [hr] at hx
      | some y =>
        have hxe : x = ⟨top.sourceIdx,y.1⟩ := by simpa [hr] using hx
        rw [hxe,hself,hr]
        rfl
    · rw [front_set_ne (hother x hx)]
      exact h.front_of_mem x (List.mem_cons_of_mem top hx)
  · intro i k hf
    apply List.mem_append.mpr
    by_cases hi : i = top.sourceIdx
    · left
      rw [hi,hself] at hf
      obtain ⟨y,hy,rfl⟩ := Option.map_eq_some_iff.mp hf
      simp [hy,hi]
    · right
      rw [front_set_ne hi] at hf
      rcases List.mem_cons.mp (h.mem_of_front i k hf) with he | he
      · exact absurd (congrArg HeapEntry.sourceIdx he) hi
      · exact he
  · cases hr : rest.head? with
    | none => simpa [hr] using hnd.2
    | some y =>
      refine List.nodup_cons.mpr ⟨?_,by simpa [hr] using hnd.2⟩
      intro hm
      obtain ⟨x,hx,hxe⟩ := List.mem_map.mp hm
      exact hother x (by simpa [hr] using hx) hxe

theorem front_snoc {ls : List (List Entry)} {l : List Entry} {i : Nat} :
    front (ls ++ [l]) i =
      if i < ls.length then front ls i
      else if i = ls.length then l.head?.map Prod.fst else none := by
  split
  · rename_i hi
    simp [front,List.getElem?_append_left hi]
  · rename_i hi
    split
    · rename_i he
      simp [front,he]
    · rw [front,List.getElem?_eq_none (by simp; omega)]
      rfl

theorem fill_fronts (hB : B.Lawful (HeapEntry.cmp C)) (rest : List S)
    (ls : List (List Entry)) (heap : List HeapEntry) {ls' : List (List Entry)}
    (hy : List.Forall₂ Yields rest ls') (h : Fronts heap ls) :
    ∃ heap', HeapMerger.fill B ls.length rest heap = .ok heap' ∧ Fronts heap' (ls ++ ls') := by
  induction hy generalizing ls heap with
  | nil => exact ⟨heap,rfl,by simpa using h⟩
  | @cons s l rest ls' hs _ ih =>
    have hbig : ∀ e ∈ heap, e.sourceIdx < ls.length := by
      intro e he
      obtain ⟨x,xs,hl,-⟩ := front_mem (h.front_of_mem e he)
      exact (List.getElem?_eq_some_iff.mp hl).1
    -- One more list at the end: its front is a new heap entry, all others are old.
    have hnext : Fronts ((l.head?.map (fun x => HeapEntry.mk ls.length x.1)).toList ++ heap)
        (ls ++ [l]) := by
      refine ⟨?_,?_,?_⟩
      · intro e he
        rcases List.mem_append.mp he with he | he
        · cases hh : l.head? with
          | none => simp [hh] at he
          | some y =>
            have hee : e = ⟨ls.length,y.1⟩ := by simpa [hh] using he
            simp [hee,front_snoc,hh]
        · simpa [front_snoc,hbig e he] using h.front_of_mem e he
      · intro i k hf
        rw [front_snoc] at hf
        apply List.mem_append.mpr
        split at hf
        · exact .inr (h.mem_of_front i k hf)
        · split at hf
          · rename_i hi
            obtain ⟨y,hy,rfl⟩ := Option.map_eq_some_iff.mp hf
            exact .inl (by simp [hy,hi])
          · contradiction
      · cases hh : l.head? with
        | none => simpa [hh] using h.nodup
        | some y =>
          refine List.nodup_cons.mpr ⟨?_,by simpa [hh] using h.nodup⟩
          intro hm
          obtain ⟨x,hx,hxe⟩ := List.mem_map.mp hm
          have hlt := hbig x (by simpa [hh] using hx)
          simp only at hxe
          omega
    have hlen : (ls ++ [l]).length = ls.length+1 := by simp
    obtain ⟨heap',hf,hfr⟩ := ih _ _ (hnext.perm (pushFront_perm hB heap ls.length l.head?))
    refine ⟨heap',?_,by simpa using hfr⟩
    simpa [HeapMerger.fill,hs.peek,hlen] using hf

theorem Fronts.exhausted {ls : List (List Entry)} (h : Fronts [] ls) : ∀ l ∈ ls, l = [] := by
  intro l hl
  obtain ⟨i,hi,rfl⟩ := List.getElem_of_mem hl
  cases hli : ls[i] with
  | nil => rfl
  | cons e es =>
    have hm := h.mem_of_front i e.1 (by simp [front,List.getElem?_eq_getElem hi,hli])
    contradiction

theorem Fronts.smallest (hC : OrdersAs C D cmp) (hB : B.Lawful (HeapEntry.cmp C))
    {heap heap' : List HeapEntry} {ls : List (List Entry)} (hD : KeysIn D ls)
    (h : Fronts heap ls) {top : HeapEntry} (hp : B.pop heap = some (top,heap')) :
    ∃ e rest, ls[top.sourceIdx]? = some (e :: rest) ∧
      ∀ x xs, x :: xs ∈ ls → cmp e.1 x.1 ≠ .gt := by
  have htop := h.front_of_mem top ((hB.pop_perm _ _ _ hp).subset List.mem_cons_self)
  obtain ⟨e,rest,hl,hek⟩ := front_mem htop
  refine ⟨e,rest,hl,fun x xs hx hg => ?_⟩
  obtain ⟨i,hil,hli⟩ := List.getElem_of_mem hx
  have hfi : front ls i = some x.1 := by simp [front,List.getElem?_eq_getElem hil,hli]
  have hmax := hB.pop_max _ _ _ hp _ (h.mem_of_front i x.1 hfi)
  have hcmp := hC.compareWithPrefix_eq (hD.front htop) (hD.front hfi)
  rw [← hek,hg] at hcmp
  simp only [HeapEntry.cmp,← hek] at hmax
  exact hmax hcmp

theorem heap_run_step {m : HeapMerger S} {ls : List (List Entry)}
    (hy : List.Forall₂ Yields m.sources ls) {top : HeapEntry} {heap : List HeapEntry}
    (hp : B.pop m.heap = some (top,heap)) {e : Entry} {rest : List Entry}
    (hl : ls[top.sourceIdx]? = some (e :: rest)) : ∃ s, Yields s (e :: rest) ∧
      ∀ fuel, HeapMerger.run B (fuel+1) m = (do
        let (out,m') ← HeapMerger.run B fuel
          ⟨m.sources.set top.sourceIdx (MergeSource.advance s),
            HeapMerger.pushFront B heap top.sourceIdx rest.head?⟩
        pure (e :: out,m')) := by
  obtain ⟨hj,hje⟩ := List.getElem?_eq_some_iff.mp hl
  have hi : top.sourceIdx < m.sources.length := by have := hy.length_eq; omega
  have hys : Yields m.sources[top.sourceIdx] (e :: rest) := by
    have := hy.get hi hj
    simpa [hje] using this
  refine ⟨m.sources[top.sourceIdx],hys,fun fuel => ?_⟩
  simp only [HeapMerger.run,hp,index_of_getElem? (List.getElem?_eq_getElem hi),ok_bind,
    hys.peek,List.head?_cons,expect,hys.advance.peek]

/-- `run` drains the lists, and the source an entry of the heap names is never exhausted. -/
theorem heap_run (hC : OrdersAs C D cmp) (hB : B.Lawful (HeapEntry.cmp C)) (total : Nat)
    {m : HeapMerger S} {ls : List (List Entry)} (hy : List.Forall₂ Yields m.sources ls)
    (hD : KeysIn D ls) (hfr : Fronts m.heap ls) (ht : ls.flatten.length = total) :
    ∃ out m', (∀ fuel, total < fuel →
        HeapMerger.run B fuel m = .ok (out.map Prod.snd,m')) ∧
      Drains (fun a b => cmp a.1 b.1 ≠ .gt) ls out := by
  induction total generalizing m ls with
  | zero =>
    have hnil : ∀ l ∈ ls, l = [] :=
      List.flatten_eq_nil_iff.mp (List.length_eq_zero_iff.mp ht)
    refine ⟨[],m,?_,.done hnil⟩
    intro fuel hf
    obtain ⟨fuel,rfl⟩ := Nat.exists_eq_succ_of_ne_zero (show fuel ≠ 0 by omega)
    cases hp : B.pop m.heap with
    | none => simp [HeapMerger.run,hp]
    | some r =>
      obtain ⟨e,rest,hl,-⟩ := hfr.smallest hC hB hD hp
      have := hnil _ (List.mem_of_getElem? hl)
      contradiction
  | succ total ih =>
    cases hp : B.pop m.heap with
    | none =>
      rw [hB.pop_none _ hp] at hfr
      rw [flatten_of_empty hfr.exhausted] at ht
      simp at ht
    | some r =>
      obtain ⟨top,heap⟩ := r
      obtain ⟨e,rest,hl,hmin⟩ := hfr.smallest hC hB hD hp
      obtain ⟨s,hys,hstep⟩ := heap_run_step hy hp hl
      have hnext := (hfr.perm (hB.pop_perm _ _ _ hp)).next hl
      have hcount : (ls.set top.sourceIdx rest).flatten.length = total := by
        have hpop := (flatten_pop hl).length_eq
        simp only [List.length_cons] at hpop
        omega
      obtain ⟨out,m',hrun,hdr⟩ := ih
        (m:=⟨m.sources.set top.sourceIdx (MergeSource.advance s),
          HeapMerger.pushFront B heap top.sourceIdx rest.head?⟩)
        (forall₂_set hy hys.advance) (hD.set hl) (hnext.perm (pushFront_perm hB _ _ _)) hcount
      refine ⟨(top.sourceIdx,e) :: out,m',?_,.pop hl hmin hdr⟩
      intro fuel hfuel
      obtain ⟨fuel,rfl⟩ := Nat.exists_eq_succ_of_ne_zero (show fuel ≠ 0 by omega)
      rw [hstep,hrun fuel (by omega)]
      rfl

/-- Both mergers end, the heap's `expect` never fails, and they hand out the same keys; with
no key occurring twice, the same entries. -/
theorem heap_loserTree_agree (hB : B.Lawful (HeapEntry.cmp internalKeyComparator))
    (sources : List S) (ls : List (List Entry)) (hy : List.Forall₂ Yields sources ls)
    (hk : ∀ l ∈ ls, ∀ e ∈ l, WellFormed e.1) (hs : ∀ l ∈ ls, SortedEntries l) :
    ∃ hm lm outH outL hm' lm', HeapMerger.new B sources = .ok hm ∧
      LoserTreeMerger.new internalKeyComparator sources = .ok lm ∧
      (∀ fuel, ls.flatten.length < fuel → HeapMerger.run B fuel hm = .ok (outH,hm') ∧
        LoserTreeMerger.run internalKeyComparator fuel lm = .ok (outL,lm')) ∧
      outH.map Prod.fst = outL.map Prod.fst ∧
      ((ls.flatten.map Prod.fst).Nodup → outH = outL) := by
  have hC := internalKeyComparator_orders
  obtain ⟨heap,hfill,hfr⟩ := fill_fronts hB sources [] [] hy
    ⟨by simp,by simp [front],by simp⟩
  obtain ⟨outH,hm',hrunH,hdH⟩ := heap_run hC hB ls.flatten.length (m:=⟨sources,heap⟩) hy hk
    (by simpa using hfr) rfl
  obtain ⟨lm,hnew,hready⟩ := new_ready hC sources hy hk
  obtain ⟨outL,lm',hrunL,hdL,-⟩ := hready.run hC ls.flatten.length rfl
  have hmem : ∀ x : Entry, x ∈ ls.flatten → WellFormed x.1 := by
    intro x hx
    obtain ⟨l,hl,hxl⟩ := List.mem_flatten.mp hx
    exact hk l hl x hxl
  have hanti : ∀ a b : Entry, a ∈ ls.flatten → b ∈ ls.flatten → compareKeys a.1 b.1 ≠ .gt →
      compareKeys b.1 a.1 ≠ .gt → a.1 = b.1 := by
    intro a b ha hb hab hba
    apply (compareKeys_eq_iff (hmem a ha) (hmem b hb)).mp
    rw [compareKeys_swap] at hba
    cases hc : compareKeys a.1 b.1 <;> simp_all
  refine ⟨⟨sources,heap⟩,lm,outH.map Prod.snd,outL.map Prod.snd,hm',lm',?_,hnew,?_,?_,?_⟩
  · simp only [HeapMerger.new,List.length_nil] at hfill ⊢
    rw [hfill]
    rfl
  · exact fun fuel hf => ⟨hrunH fuel hf,hrunL fuel hf⟩
  · exact Drains.keys_unique Prod.fst (fun a b => compareKeys a b ≠ .gt)
      (fun _ _ _ _ _ _ h₁ h₂ => compareKeys_trans h₁ h₂) hanti hs hdH hdL
  · intro hnd
    have hinj : ∀ a b : Entry, a ∈ ls.flatten → b ∈ ls.flatten → a.1 = b.1 → a = b :=
      fun a b ha hb he => List.inj_on_of_nodup_map hnd ha hb he
    have hu := Drains.keys_unique id (fun a b : Entry => compareKeys a.1 b.1 ≠ .gt)
      (fun _ _ _ _ _ _ h₁ h₂ => compareKeys_trans h₁ h₂)
      (fun a b ha hb hab hba => hinj a b ha hb (hanti a b ha hb hab hba)) hs hdH hdL
    simpa using hu

end

def searchedHeap (C : KeyComparator) : BinaryHeap where
  push h e := e :: h
  pop h :=
    match h with
    | [] => none
    | x :: xs =>
      let top := xs.foldl (fun best y => if HeapEntry.cmp C y best = .ok .gt then y else best) x
      some (top,(x :: xs).erase top)

theorem splitSuffix_wellFormed {k : Bytes} {p : Bytes × Bytes} (h : splitSuffix k = .ok p) :
    WellFormed k := by
  obtain ⟨n,hn,-⟩ := bind_eq_ok h
  unfold checkedSub at hn
  split at hn
  · rename_i hle
    exact hle
  · contradiction

theorem internalKeyCompare_eq_ok {a b : Bytes} {o : Ordering}
    (h : internalKeyCompare a b = .ok o) :
    WellFormed a ∧ WellFormed b ∧ compareKeys a b = o := by
  have hab := h
  obtain ⟨p,hp,h⟩ := bind_eq_ok h
  obtain ⟨q,hq,-⟩ := bind_eq_ok h
  have ha := splitSuffix_wellFormed hp
  have hb := splitSuffix_wellFormed hq
  rw [internalKeyCompare_ok ha hb,Except.ok.injEq] at hab
  exact ⟨ha,hb,hab⟩

theorem heapGreater_trans {a b c : HeapEntry}
    (hab : HeapEntry.cmp internalKeyComparator a b = .ok .gt)
    (hbc : HeapEntry.cmp internalKeyComparator b c = .ok .gt) :
    HeapEntry.cmp internalKeyComparator a c = .ok .gt := by
  obtain ⟨-,ha,hba⟩ := internalKeyCompare_eq_ok (show internalKeyCompare b.key a.key = _ from hab)
  obtain ⟨hc,-,hcb⟩ := internalKeyCompare_eq_ok (show internalKeyCompare c.key b.key = _ from hbc)
  show internalKeyCompare c.key a.key = _
  rw [internalKeyCompare_ok hc ha]
  exact congrArg _ (Std.TransCmp.gt_trans hcb hba)

theorem heapGreater_irrefl (a : HeapEntry) :
    HeapEntry.cmp internalKeyComparator a a ≠ .ok .gt := by
  intro hgt
  obtain ⟨-,-,hself⟩ := internalKeyCompare_eq_ok (show internalKeyCompare a.key a.key = _ from hgt)
  rw [show compareKeys a.key a.key = .eq from Std.ReflCmp.compare_self] at hself
  contradiction

theorem searchedHeap_top (xs : List HeapEntry) (x : HeapEntry) :
    let top := xs.foldl (fun best y =>
      if HeapEntry.cmp internalKeyComparator y best = .ok .gt then y else best) x
    top ∈ x :: xs ∧ ∀ y ∈ x :: xs, HeapEntry.cmp internalKeyComparator y top ≠ .ok .gt := by
  induction xs using List.reverseRecOn with
  | nil =>
    refine ⟨by simp,fun y hy => ?_⟩
    rw [List.mem_singleton.mp hy]
    exact heapGreater_irrefl x
  | append_singleton xs z ih =>
    simp only [List.foldl_append,List.foldl_cons,List.foldl_nil]
    generalize xs.foldl (fun best y =>
      if HeapEntry.cmp internalKeyComparator y best = .ok .gt then y else best) x = top at ih
    obtain ⟨hmem,hmax⟩ := ih
    have hcases : ∀ y, y ∈ x :: (xs ++ [z]) → y ∈ x :: xs ∨ y = z := by
      intro y hy
      simpa [or_assoc] using hy
    split
    · rename_i hgt
      refine ⟨by simp,fun y hy hyz => ?_⟩
      rcases hcases y hy with hy | rfl
      · exact hmax y hy (heapGreater_trans hyz hgt)
      · exact heapGreater_irrefl y hyz
    · rename_i hgt
      refine ⟨?_,fun y hy => ?_⟩
      · rw [← List.cons_append]
        exact List.mem_append_left _ hmem
      · rcases hcases y hy with hy | rfl
        · exact hmax y hy
        · exact hgt

theorem searchedHeap_pop {h h' : List HeapEntry} {e : HeapEntry}
    (hpop : (searchedHeap internalKeyComparator).pop h = some (e,h')) :
    h.Perm (e :: h') ∧ ∀ y ∈ h, HeapEntry.cmp internalKeyComparator y e ≠ .ok .gt := by
  cases h with
  | nil => simp [searchedHeap] at hpop
  | cons x xs =>
    simp only [searchedHeap,Option.some.injEq,Prod.mk.injEq] at hpop
    obtain ⟨rfl,rfl⟩ := hpop
    exact ⟨List.perm_cons_erase (searchedHeap_top xs x).1,(searchedHeap_top xs x).2⟩

theorem searchedHeap_lawful :
    (searchedHeap internalKeyComparator).Lawful (HeapEntry.cmp internalKeyComparator) where
  push_perm := fun _ _ => List.Perm.refl _
  pop_none := by
    intro h hpop
    cases h with
    | nil => rfl
    | cons x xs => simp [searchedHeap] at hpop
  pop_perm := by
    intro h e h' hpop
    exact (searchedHeap_pop hpop).1.symm
  pop_max := by
    intro h e h' hpop
    exact (searchedHeap_pop hpop).2

theorem heap_loserTree_agree_three :
    ∃ hm lm outH outL hm' lm',
      HeapMerger.new (searchedHeap internalKeyComparator) (threeSources.map VecSource.new) =
        .ok hm ∧
      LoserTreeMerger.new internalKeyComparator (threeSources.map VecSource.new) = .ok lm ∧
      (∀ fuel, threeSources.flatten.length < fuel →
        HeapMerger.run (searchedHeap internalKeyComparator) fuel hm = .ok (outH,hm') ∧
        LoserTreeMerger.run internalKeyComparator fuel lm = .ok (outL,lm')) ∧
      outH.map Prod.fst = outL.map Prod.fst ∧ outH = outL := by
  obtain ⟨hm,lm,outH,outL,hm',lm',hnewH,hnewL,hrun,hkeys,hsame⟩ := heap_loserTree_agree
    searchedHeap_lawful _ _ (vecSources_yield threeSources) (by decide) (by decide)
  exact ⟨hm,lm,outH,outL,hm',lm',hnewH,hnewL,hrun,hkeys,hsame (by decide)⟩

end SstCompactor
