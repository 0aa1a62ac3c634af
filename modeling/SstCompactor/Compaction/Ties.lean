import SstCompactor.Merge.Last
import SstCompactor.Compaction.Shard
import SstCompactor.Compaction.Survivors

/-!
One internal key in several sources. The default compaction keeps the version that leaves the
merge first, and which one that is depends on the other entries of the sources: a tie goes to
the half of the tree that did not hand out the last entry.
-/

set_option autoImplicit false

namespace SstCompactor
open FixedWidth Kway

def ofUser (u : Bytes) (es : List Entry) : List Entry := es.filter (fun e => userKey e.1 == u)

theorem mem_ofUser {u : Bytes} {es : List Entry} {e : Entry} :
    e ∈ ofUser u es ↔ e ∈ es ∧ userKey e.1 = u := by
  simp [ofUser]

def isLive (e : Entry) : Bool := !(valueType e.1).isTombstone

theorem ofUser_behind {u : Bytes} {e : Entry} {es : List Entry} (hs : SortedEntries (e :: es))
    (hlt : compare u (userKey e.1) = .lt) : ofUser u es = [] := by
  rw [ofUser,List.filter_eq_nil_iff]
  intro x hx hxu
  have hxu : userKey x.1 = u := by simpa using hxu
  have hge := compare_user_of_le ((List.pairwise_cons.mp hs).1 x hx)
  rw [hxu,compareBytes_swap,hlt] at hge
  exact hge rfl

theorem survivors_ofUser_last (u : Bytes) {es : List Entry} (hs : SortedEntries es)
    (last : Option Bytes)
    (hl : ∀ v, last = some v → ∀ e ∈ es, compare v (userKey e.1) ≠ .gt) :
    ofUser u (survivors last es) =
      if last = some u then [] else ((ofUser u es).head?.filter isLive).toList := by
  induction es generalizing last with
  | nil => simp [survivors,ofUser]
  | cons e es ih =>
    obtain ⟨hfst,hrest⟩ := List.pairwise_cons.mp hs
    have hrec := ih hrest (some (userKey e.1)) (by
      intro v hv x hx
      rw [← Option.some.inj hv]
      exact compare_user_of_le (hfst x hx))
    by_cases hu : userKey e.1 = u
    · subst hu
      rw [if_pos rfl] at hrec
      have hhead : (ofUser (userKey e.1) (e :: es)).head? = some e := by simp [ofUser]
      rw [survivors,hhead]
      by_cases hlast : last = some (userKey e.1)
      · simp [hlast,hrec]
      · cases ht : (valueType e.1).isTombstone with
        | true => simpa [hlast,ht,isLive,Option.filter] using hrec
        | false =>
          have hcons : ofUser (userKey e.1) (e :: survivors (some (userKey e.1)) es) =
              e :: ofUser (userKey e.1) (survivors (some (userKey e.1)) es) := by simp [ofUser]
          simp [hlast,ht,isLive,Option.filter,hcons,hrec]
    · rw [if_neg (fun h => hu (Option.some.inj h))] at hrec
      have hskip : ∀ fs : List Entry, ofUser u (e :: fs) = ofUser u fs := by
        intro fs
        simp [ofUser,hu]
      have hsurv : ofUser u (survivors last (e :: es)) =
          ofUser u (survivors (some (userKey e.1)) es) := by
        rw [survivors]
        split
        · exact hskip _
        · rfl
      rw [hsurv,hrec,hskip]
      by_cases hlast : last = some u
      · have hlt := compare_lt_of_ne (hl u hlast e (by simp)) (Ne.symm hu)
        simp [hlast,ofUser_behind hs hlt]
      · simp [hlast]

theorem survivors_ofUser (u : Bytes) {es : List Entry} (hs : SortedEntries es) :
    ofUser u (survivors none es) = ((ofUser u es).head?.filter isLive).toList := by
  simpa using survivors_ofUser_last u hs none (by simp)

theorem head_ofUser {u : Bytes} {es : List Entry} (hs : SortedEntries es)
    (hw : ∀ x ∈ es, WellFormed x.1) {e : Entry} (he : e ∈ es) (hu : userKey e.1 = u)
    (hn : newestWhere always es e = true) : ∃ x, (ofUser u es).head? = some x ∧ x.1 = e.1 := by
  have hmem : e ∈ ofUser u es := mem_ofUser.mpr ⟨he,hu⟩
  have hsorted : SortedEntries (ofUser u es) := hs.sublist List.filter_sublist
  cases hl : ofUser u es with
  | nil =>
    rw [hl] at hmem
    simp at hmem
  | cons x l =>
    refine ⟨x,rfl,?_⟩
    have hx : x ∈ ofUser u es := by rw [hl]; simp
    obtain ⟨hxe,hxu⟩ := mem_ofUser.mp hx
    rw [hl] at hmem hsorted
    rcases List.mem_cons.mp hmem with rfl | hel
    · rfl
    · have hle := (List.pairwise_cons.mp hsorted).1 e hel
      rw [compareKeys_same_user (hxu.trans hu.symm)] at hle
      have h₁ := (newestWhere_iff.mp hn).2 x hxe (hxu.trans hu.symm) rfl
      have h₂ := Nat.not_lt.mp (fun h => hle (Nat.compare_eq_gt.mpr h))
      exact key_ext (hw x hxe) (hw e he) (hxu.trans hu.symm) (Nat.le_antisymm h₁ h₂)

theorem lower_userBelow (u : Bytes) : Bracket.Lower keyCmp (fun e => userBelow e u) := by
  intro x y hx hy
  have hlt : compare (userKey x.1) u = .lt := by simpa [userBelow] using hx
  have hle : (compare u (userKey y.1)).isLE := by
    rw [Ordering.isLE_iff_ne_gt,compareBytes_swap]
    simpa [userBelow] using hy
  rw [keyCmp,compareKeys,Std.TransCmp.lt_of_lt_of_isLE hlt hle]
  rfl

/-- The state of the merge when the entries before `u` have left. -/
def bracketAt (u : Bytes) (ls : List (List Entry)) : Bracket Entry :=
  (bracketOf ls).spent keyCmp (fun e => userBelow e u)

def tieFront (k : Bytes) (t : Bracket Entry) : Option Entry :=
  (t.tieBreak (fun e => e.1 == k)).map Prod.snd

def keysBelow (u : Bytes) (ls : List (List Entry)) : List Bytes :=
  keysDown (ls.flatten.filter (fun e => userBelow e u))

/-- The entry with key `k` that leaves first, by the sources alone. Where both halves have one it
is that of the right half, unless the keys before `u` in the right half, read from the largest
down, are lexicographically greater than those in the left half. -/
def tieWinner (u k : Bytes) : Nat → List (List Entry) → Option Entry
  | 0, ls => ls.head?.bind (fun l => l.find? (fun e => e.1 == k))
  | h+1, ls =>
    match tieWinner u k h (ls.take (2^h)),tieWinner u k h (ls.drop (2^h)) with
    | some x,some y =>
      if List.compareLex compareKeys (keysBelow u (ls.take (2^h)))
          (keysBelow u (ls.drop (2^h))) = .lt then some x else some y
    | some x,none => some x
    | none,y => y

def lastHolder (k : Bytes) (ls : List (List Entry)) : Option Entry :=
  (ls.filterMap (fun l => l.find? (fun e => e.1 == k))).getLast?

theorem compare_newest {es : List Entry} (hw : ∀ x ∈ es, WellFormed x.1) {e : Entry} (he : e ∈ es)
    {u : Bytes} (hu : userKey e.1 = u) (hn : newestWhere always es e = true) {y : Entry}
    (hy : y ∈ es) (hb : userBelow y u = false) (hne : ¬ y.1 = e.1) :
    compareKeys e.1 y.1 = .lt := by
  have hle : compareKeys e.1 y.1 ≠ .gt := by
    by_cases hyu : userKey y.1 = u
    · rw [compareKeys_same_user (hu.trans hyu.symm)]
      have hle := (newestWhere_iff.mp hn).2 y hy (hyu.trans hu.symm) rfl
      exact fun h => Nat.not_lt.mpr hle (Nat.compare_eq_gt.mp h)
    · have hlt : compare (userKey e.1) (userKey y.1) = .lt := by
        rw [hu]
        refine compare_lt_of_ne (fun h => ?_) (Ne.symm hyu)
        rw [compareBytes_swap,Ordering.swap_eq_gt] at h
        simp [userBelow,h] at hb
      rw [compareKeys,hlt]
      simp
  cases hc : compareKeys e.1 y.1 with
  | lt => rfl
  | gt => exact absurd hc hle
  | eq => exact absurd ((compareKeys_eq_iff (hw e he) (hw y hy)).mp hc).symm hne

theorem emits_bracketAt {ls : List (List Entry)} (hs : ∀ l ∈ ls, SortedEntries l) (u : Bytes) :
    ((bracketAt u ls).emits keyLt).map Prod.snd =
      (mergeOrder ls).filter (fun e => !userBelow e u) := by
  have hsplit := Pieces.splitList_append
    (ascending_of_sorted (mergeOrder_sorted hs)) u
  simp only [Pieces.splitList] at hsplit
  have hlen : (bracketOf ls).contents.countP (fun x => userBelow x.2 u) =
      ((mergeOrder ls).filter (fun e => userBelow e u)).length := by
    rw [← List.countP_eq_length_filter,(mergeOrder_perm ls).countP_eq,← contents_bracketOf,
      List.countP_map]
    rfl
  rw [bracketAt,Bracket.spent,ltOf_keyCmp,Bracket.emits_popN,List.map_drop,← mergeOrder,hlen]
  nth_rewrite 2 [← hsplit]
  exact List.drop_left

theorem head_notBelow {es : List Entry} (hs : SortedEntries es) {u : Bytes} {x : Entry}
    (hx : (ofUser u es).head? = some x) :
    (es.filter (fun e => !userBelow e u)).head? = some x := by
  induction es with
  | nil => simp [ofUser] at hx
  | cons e es ih =>
    obtain ⟨hfst,hrest⟩ := List.pairwise_cons.mp hs
    by_cases hu : userKey e.1 = u
    · have hex : e = x := by simpa [ofUser,hu] using hx
      subst hex
      simp [userBelow,hu]
    · have hx : (ofUser u es).head? = some x := by simpa [ofUser,hu] using hx
      obtain ⟨hxe,hxu⟩ := mem_ofUser.mp (List.mem_of_mem_head? hx)
      have hle := compare_user_of_le (hfst x hxe)
      rw [hxu] at hle
      have hbelow : userBelow e u = true := by simp [userBelow,compare_lt_of_ne hle hu]
      simpa [hbelow] using ih hrest hx

theorem front_bracketAt {ls : List (List Entry)} (hs : ∀ l ∈ ls, SortedEntries l) {u : Bytes}
    {x : Entry} (hx : (ofUser u (mergeOrder ls)).head? = some x) :
    ∃ i, (bracketAt u ls).front keyLt = some (i,x) := by
  have hhead := head_notBelow (mergeOrder_sorted hs) hx
  rw [← emits_bracketAt hs,List.head?_map,Bracket.head_emits,Option.map_eq_some_iff] at hhead
  obtain ⟨p,hp,hpx⟩ := hhead
  exact ⟨p.1,by rw [hp,← hpx]⟩

/-- The first entry of `u` to leave the merge is the one the flags point to. -/
theorem tieFront_bracketAt {ls : List (List Entry)} (hw : KeysIn WellFormed ls)
    (hs : ∀ l ∈ ls, SortedEntries l) {u : Bytes} {e : Entry} (he : e ∈ ls.flatten)
    (hu : userKey e.1 = u) (hn : newestWhere always ls.flatten e = true) :
    tieFront e.1 (bracketAt u ls) = (ofUser u (mergeOrder ls)).head? := by
  have hp := mergeOrder_perm ls
  have hwf := flatten_wf hw
  obtain ⟨x,hx,hxe⟩ := head_ofUser (mergeOrder_sorted hs) (mergeOrder_wf hw)
    (hp.symm.subset he) hu (by rwa [newestWhere_perm hp])
  obtain ⟨i,hfront⟩ := front_bracketAt hs hx
  have hkey : ∀ y ∈ (bracketAt u ls).fronts, ¬ y.1 = e.1 → compareKeys e.1 y.1 = .lt := by
    intro y hy hne
    obtain ⟨j,hj⟩ := Bracket.mem_contents_of_fronts hy
    have hym : y ∈ (mergeOrder ls).filter (fun e => !userBelow e u) := by
      rw [← emits_bracketAt hs]
      exact List.mem_map_of_mem (f:=Prod.snd)
        ((Bracket.emits_perm keyLt (bracketAt u ls)).symm.subset hj)
    obtain ⟨hy₁,hy₂⟩ := List.mem_filter.mp hym
    exact compare_newest hwf he hu hn (hp.subset hy₁) (by simpa using hy₂) hne
  have hself : compareKeys e.1 e.1 = .eq := Std.ReflCmp.compare_self
  have htie := Bracket.tieBreak_eq keyLt (fun y => y.1 == e.1) (bracketAt u ls)
    (by
      intro y _ z _ hy hz
      rw [beq_iff_eq] at hy hz
      simp [entryLt,hy,hz,hself])
    (by
      intro y _ z hz hy hzne
      rw [beq_iff_eq] at hy
      have hlt := hkey z hz (by simpa using hzne)
      simp [entryLt,hy,hlt,compareKeys_swap e.1 z.1])
  rw [tieFront,htie,hfront,hx]
  simp [Option.filter,hxe]

theorem tieWinner_take (u k : Bytes) (h : Nat) (ls : List (List Entry)) :
    tieWinner u k (h+1) (ls.take (2^(h+1))) =
      Bracket.pick (flagOf true (List.compareLex compareKeys (keysBelow u (ls.take (2^h)))
          (keysBelow u ((ls.drop (2^h)).take (2^h)))))
        (tieWinner u k h (ls.take (2^h))) (tieWinner u k h ((ls.drop (2^h)).take (2^h))) := by
  rw [tieWinner,(take_halves h ls).1,(take_halves h ls).2]
  cases tieWinner u k h (ls.take (2^h)) with
  | none => rfl
  | some x =>
    cases tieWinner u k h ((ls.drop (2^h)).take (2^h)) with
    | none => rfl
    | some y =>
      cases List.compareLex compareKeys (keysBelow u (ls.take (2^h)))
        (keysBelow u ((ls.drop (2^h)).take (2^h))) <;> rfl

theorem tieFront_leaf {l : List Entry} (hs : SortedEntries l) {u k : Bytes} (hk : userKey k = u)
    (hn : ∀ x ∈ l, userBelow x u = false → ¬ x.1 = k → compareKeys k x.1 = .lt) (i : Nat) :
    tieFront k ((Bracket.leaf i l).spent keyCmp (fun e => userBelow e u)) =
      l.find? (fun e => e.1 == k) := by
  have hcount : (Bracket.leaf i l).contents.countP (fun x => userBelow x.2 u) =
      l.countP (fun e => userBelow e u) := by
    rw [Bracket.contents_leaf,List.countP_map]
    rfl
  rw [tieFront,Bracket.spent,Bracket.popN_leaf,Bracket.tieBreak,Option.map_map,hcount,
    head_drop_countP (lower_userBelow u) hs]
  · simp [Function.comp_def]
  · intro x hx
    rw [beq_iff_eq] at hx
    simp [userBelow,hx,hk]
  · intro x _ y hy hx hyk hyu
    rw [beq_iff_eq] at hx
    rw [keyCmp,hx]
    exact hn y hy hyu (by simpa using hyk)

theorem tieFront_node (u k : Bytes) (side : Bool) {a b : Bracket Entry} (ha : a.Sorted keyCmp)
    (hb : b.Sorted keyCmp) :
    tieFront k ((Bracket.node side a b).spent keyCmp (fun e => userBelow e u)) =
      Bracket.pick (flagOf side (List.compareLex compareKeys
          ((a.emitsOf keyCmp (fun e => userBelow e u)).reverse.map Prod.fst)
          ((b.emitsOf keyCmp (fun e => userBelow e u)).reverse.map Prod.fst)))
        (tieFront k (a.spent keyCmp (fun e => userBelow e u)))
        (tieFront k (b.spent keyCmp (fun e => userBelow e u))) := by
  rw [tieFront,Bracket.tieBreak_spent (lower_userBelow u) _ side ha hb,Bracket.pick_map,
    compareLex_map]
  rfl

section
variable {ls : List (List Entry)} (hw : KeysIn WellFormed ls) (hs : ∀ l ∈ ls, SortedEntries l)
include hw hs

theorem tieFront_fullUnder {u : Bytes} {e : Entry} (he : e ∈ ls.flatten) (hu : userKey e.1 = u)
    (hn : newestWhere always ls.flatten e = true) (k h n : Nat) (hk : k ≤ n*2^h) :
    tieFront e.1 ((fullUnder k ls h n).spent keyCmp (fun e => userBelow e u)) =
      tieWinner u e.1 h ((ls.drop (n*2^h-k)).take (2^h)) := by
  induction h generalizing n with
  | zero =>
    have hwf := flatten_wf hw
    have hmem : ∀ x ∈ (ls[n-k]?).getD [], x ∈ ls.flatten := by
      intro x hx
      cases hl : ls[n-k]? with
      | none => simp [hl] at hx
      | some l =>
        rw [hl] at hx
        exact List.mem_flatten.mpr ⟨l,List.mem_of_getElem? hl,hx⟩
    have hsort : SortedEntries ((ls[n-k]?).getD []) :=
      sorted_fullUnder hs k 0 n (n-k,(ls[n-k]?).getD []) (by simp [fullUnder,Bracket.leaves])
    rw [Nat.pow_zero,Nat.mul_one,tieWinner,List.take_one,List.head?_drop,fullUnder,
      tieFront_leaf hsort hu (fun x hx => compare_newest hwf he hu hn (hmem x hx))]
    cases ls[n-k]? <;> rfl
  | succ h ih =>
    rw [Tournament.mul_pow_succ] at hk ⊢
    obtain ⟨hr,hstart⟩ := Tournament.right_start hk
    have hsl : (fullUnder k ls h (2*n)).Sorted keyCmp := sorted_fullUnder hs k h (2*n)
    have hsr : (fullUnder k ls h (2*n+1)).Sorted keyCmp := sorted_fullUnder hs k h (2*n+1)
    have hkeys := keysDown_fullUnder hw hs (fun e => userBelow e u) k h
    have hkr := hkeys (2*n+1) hr
    have ihr := ih (2*n+1) hr
    rw [hstart,← List.drop_drop] at hkr ihr
    rw [fullUnder,tieFront_node u e.1 true hsl hsr,hkeys (2*n) hk,hkr,ih (2*n) hk,ihr,
      tieWinner_take]
    rfl

/-- The sources alone decide what the flags point to. -/
theorem tieFront_eq {u : Bytes} {e : Entry} (he : e ∈ ls.flatten) (hu : userKey e.1 = u)
    (hn : newestWhere always ls.flatten e = true) :
    tieFront e.1 (bracketAt u ls) = tieWinner u e.1 (Nat.clog 2 (max ls.length 1)) ls := by
  rw [bracketAt,bracketOf,tieFront_fullUnder hw hs he hu hn _ _ _ (by omega),Nat.one_mul,
    Nat.sub_self,List.drop_zero,List.take_of_length_le (length_le_padded _)]

end

theorem ofUser_keys {ls : List (List Entry)} (hw : KeysIn WellFormed ls) (u : Bytes) :
    KeysIn WellFormed (ls.map (ofUser u)) := by
  intro l hl e he
  obtain ⟨l',hl',rfl⟩ := List.mem_map.mp hl
  exact hw l' hl' e (mem_ofUser.mp he).1

theorem ofUser_sorted {ls : List (List Entry)} (hs : ∀ l ∈ ls, SortedEntries l) (u : Bytes) :
    ∀ l ∈ ls.map (ofUser u), SortedEntries l := by
  intro l hl
  obtain ⟨l',hl',rfl⟩ := List.mem_map.mp hl
  exact (hs l' hl').sublist List.filter_sublist

theorem ofUser_flatten (u : Bytes) (ls : List (List Entry)) :
    (ls.map (ofUser u)).flatten = ofUser u ls.flatten :=
  List.filter_flatten.symm

theorem newest_of_subset {es fs : List Entry} (hs : ∀ x ∈ fs, x ∈ es) {e : Entry}
    (hn : newestWhere always es e = true) : newestWhere always fs e = true :=
  newestWhere_iff.mpr ⟨rfl,fun x hx => (newestWhere_iff.mp hn).2 x (hs x hx)⟩

theorem find_newest {l : List Entry} (hs : SortedEntries l) {u k : Bytes} (hk : userKey k = u)
    (hn : ∀ x ∈ l, userBelow x u = false → ¬ x.1 = k → compareKeys k x.1 = .lt) :
    (ofUser u l).head?.filter (fun e => e.1 == k) = l.find? (fun e => e.1 == k) := by
  have hfind : l.find? (fun e => e.1 == k) = (ofUser u l).find? (fun e => e.1 == k) := by
    rw [ofUser,List.find?_filter]
    congr 1
    funext e
    by_cases he : e.1 = k <;> simp [he,hk]
  have hsorted : SortedEntries (ofUser u l) := hs.sublist List.filter_sublist
  have hlower : Bracket.Lower keyCmp (fun _ => false) := by
    intro x y hx
    contradiction
  rw [hfind,← head_drop_countP hlower hsorted (fun _ _ => rfl)]
  · simp
  · intro x _ y hy hx hyk _
    obtain ⟨hyl,hyu⟩ := mem_ofUser.mp hy
    rw [beq_iff_eq] at hx
    rw [keyCmp,hx]
    exact hn y hyl (by simp [userBelow,hyu]) (by simpa using hyk)

theorem head_restricted {ls : List (List Entry)} (hw : KeysIn WellFormed ls)
    (hs : ∀ l ∈ ls, SortedEntries l) {u : Bytes} {e : Entry} (he : e ∈ ls.flatten)
    (hu : userKey e.1 = u) (hn : newestWhere always ls.flatten e = true) :
    (ofUser u (mergeOrder (ls.map (ofUser u)))).head? = lastHolder e.1 ls := by
  have hflat := ofUser_flatten u ls
  have hsub : ∀ x ∈ (ls.map (ofUser u)).flatten, x ∈ ls.flatten := by
    intro x hx
    rw [hflat] at hx
    exact (mem_ofUser.mp hx).1
  have hupper : ∀ x ∈ (bracketOf (ls.map (ofUser u))).contents, userBelow x.2 u = false := by
    intro x hx
    have hx := List.mem_map_of_mem (f:=Prod.snd) hx
    rw [contents_bracketOf,hflat] at hx
    simp [userBelow,(mem_ofUser.mp hx).2]
  rw [← tieFront_bracketAt (ofUser_keys hw u) (ofUser_sorted hs u)
    (by rw [hflat]; exact mem_ofUser.mpr ⟨he,hu⟩) hu (newest_of_subset hsub hn),bracketAt,
    (Bracket.spent_upper hupper).1,tieFront,tieBreak_bracketOf,lastHolder,List.filterMap_map]
  congr 1
  refine List.filterMap_congr (fun l hl => ?_)
  refine find_newest (hs l hl) hu (fun x hx => ?_)
  have hwf := flatten_wf hw
  exact compare_newest hwf he hu hn (List.mem_flatten.mpr ⟨l,hl,hx⟩)

/-- For the newest internal key of `u`, unless it is a deletion mark, the entry the flags point
to and the one of the last source are the same. -/
def TiesAgree (u : Bytes) (ls : List (List Entry)) : Prop :=
  ∀ e ∈ ls.flatten, userKey e.1 = u → newestWhere always ls.flatten e = true →
    (valueType e.1).isTombstone = true ∨
      tieWinner u e.1 (Nat.clog 2 (max ls.length 1)) ls = lastHolder e.1 ls

theorem writtenEntry_inj (opts : SstBuilderOptions) {x y : Entry} (hk : x.1 = y.1)
    (h : writtenEntry opts x = writtenEntry opts y) : x = y := by
  have hv := congrArg Prod.snd h
  rw [writtenEntry_snd,writtenEntry_snd] at hv
  exact Prod.ext hk hv

theorem ofUser_written (opts : SstBuilderOptions) (u : Bytes) (es : List Entry) :
    ofUser u (written opts es) = written opts (ofUser u es) :=
  (written_filter opts (p:=fun k => k == u) es).symm

theorem survivors_restricted {ls : List (List Entry)} (hs : ∀ l ∈ ls, SortedEntries l)
    (u : Bytes) :
    survivors none (mergeOrder (ls.map (ofUser u))) =
      ((ofUser u (mergeOrder (ls.map (ofUser u)))).head?.filter isLive).toList := by
  rw [← survivors_ofUser u (mergeOrder_sorted (ofUser_sorted hs u)),ofUser,
    List.filter_eq_self.mpr]
  intro e he
  have hm := (mergeOrder_perm _).subset ((survivors_sublist none _).subset he)
  rw [ofUser_flatten] at hm
  simpa using (mem_ofUser.mp hm).2

theorem newest_key {es : List Entry} (hw : ∀ x ∈ es, WellFormed x.1) {x y : Entry} (hx : x ∈ es)
    (hy : y ∈ es) (hxy : userKey x.1 = userKey y.1) (hnx : newestWhere always es x = true)
    (hny : newestWhere always es y = true) : x.1 = y.1 := by
  have h₁ := (newestWhere_iff.mp hny).2 x hx hxy rfl
  have h₂ := (newestWhere_iff.mp hnx).2 y hy hxy.symm rfl
  exact key_ext (hw x hx) (hw y hy) hxy (Nat.le_antisymm h₁ h₂)

theorem tiesAgree_iff {ls : List (List Entry)} (hw : KeysIn WellFormed ls) {u : Bytes} {e : Entry}
    (he : e ∈ ls.flatten) (hu : userKey e.1 = u) (hn : newestWhere always ls.flatten e = true) :
    TiesAgree u ls ↔ (valueType e.1).isTombstone = true ∨
      tieWinner u e.1 (Nat.clog 2 (max ls.length 1)) ls = lastHolder e.1 ls := by
  constructor
  · exact fun h => h e he hu hn
  · intro h x hx hxu hxn
    rwa [newest_key (flatten_wf hw) hx he (hxu.trans hu.symm) hxn hn]

theorem survivors_local_iff {ls : List (List Entry)} (hw : KeysIn WellFormed ls)
    (hs : ∀ l ∈ ls, SortedEntries l) (opts : SstBuilderOptions) (u : Bytes) :
    ofUser u (written opts (survivors none (mergeOrder ls))) =
        written opts (survivors none (mergeOrder (ls.map (ofUser u)))) ↔ TiesAgree u ls := by
  have hp := mergeOrder_perm ls
  have hp' := mergeOrder_perm (ls.map (ofUser u))
  rw [ofUser_flatten] at hp'
  rw [ofUser_written,survivors_ofUser u (mergeOrder_sorted hs),survivors_restricted hs u]
  by_cases hex : ∃ e ∈ ls.flatten, userKey e.1 = u
  · obtain ⟨e,he,hu⟩ := hex
    obtain ⟨m,hm,hmu,hn⟩ := exists_newest always he rfl
    rw [hu] at hmu
    obtain ⟨x,hx,hxm⟩ := head_ofUser (mergeOrder_sorted hs) (mergeOrder_wf hw)
      (hp.symm.subset hm) hmu (by rwa [newestWhere_perm hp])
    obtain ⟨y,hy,hym⟩ := head_ofUser (mergeOrder_sorted (ofUser_sorted hs u))
      (mergeOrder_wf (ofUser_keys hw u)) (hp'.symm.subset (mem_ofUser.mpr ⟨hm,hmu⟩)) hmu
      (newest_of_subset (fun z hz => (mem_ofUser.mp (hp'.subset hz)).1) hn)
    rw [tiesAgree_iff hw hm hmu hn,← tieFront_eq hw hs hm hmu hn,
      tieFront_bracketAt hw hs hm hmu hn,← head_restricted hw hs hm hmu hn,hx,hy]
    cases ht : (valueType m.1).isTombstone with
    | true => simp [Option.filter,isLive,hxm,hym,ht]
    | false =>
      simp only [Option.filter,isLive,hxm,hym,ht,Bool.not_false,↓reduceIte,Option.toList_some,
        written_eq_map,List.map_cons,List.map_nil,List.cons.injEq,and_true,Bool.false_eq_true,
        false_or,Option.some.injEq]
      exact ⟨writtenEntry_inj opts (hxm.trans hym.symm),fun h => by rw [h]⟩
  · have hnone : ∀ es : List Entry, (∀ x ∈ es, x ∈ ls.flatten) → ofUser u es = [] := by
      intro es hes
      rw [ofUser,List.filter_eq_nil_iff]
      intro x hx hxu
      exact hex ⟨x,hes x hx,by simpa using hxu⟩
    rw [hnone _ (fun x hx => hp.subset hx),
      hnone (mergeOrder (ls.map (ofUser u))) (fun x hx => (mem_ofUser.mp (hp'.subset hx)).1)]
    simp only [List.head?_nil,true_iff]
    exact fun x hx hxu => absurd ⟨x,hx,hxu⟩ hex

theorem ties_read (X : Crates) (opts : CompactionOptions) {sources sources' : List ArenaSource}
    {ls : List (List Entry)} (h : SortedInputs sources ls) (u : Bytes)
    (hy : List.Forall₂ Yields sources' (ls.map (ofUser u))) {reader reader' : FileReader}
    (hc : compact X sources opts = .ok reader.contents)
    (hc' : compact X sources' opts = .ok reader'.contents) :
    (∃ out out', decodeSst X reader = .ok out ∧ decodeSst X reader' = .ok out' ∧
        ofUser u out = out') ↔
      dataBlockCount (written opts.sstBuilder (survivors none (mergeOrder ls))) < 2^32 ∧
        TiesAgree u ls := by
  have h' : SortedInputs sources' (ls.map (ofUser u)) :=
    ⟨hy,ofUser_sorted h.sorted u,ofUser_keys h.wf u⟩
  obtain ⟨bytes,hb,hfile⟩ := h.compact_fileOf X opts
  obtain ⟨bytes',hb',hfile'⟩ := h'.compact_fileOf X opts
  have hr : reader.contents = bytes := Except.ok.inj (hc.symm.trans hb)
  have hr' : reader'.contents = bytes' := Except.ok.inj (hc'.symm.trans hb')
  -- At most one entry is left of `u`, so the second file is always readable.
  have hsmall : dataBlockCount (written opts.sstBuilder
      (survivors none (mergeOrder (ls.map (ofUser u))))) < 2^32 := by
    refine Nat.lt_of_le_of_lt (dataBlockCount_le _) ?_
    rw [survivors_restricted h.sorted,written_eq_map,List.length_map]
    cases ((ofUser u (mergeOrder (ls.map (ofUser u)))).head?.filter isLive) <;> simp
  have hout' := (hfile' reader' hr').low hsmall
  rw [← survivors_local_iff h.wf h.sorted opts.sstBuilder u,← (hfile reader hr).iff (fun out =>
    ofUser u out = written opts.sstBuilder (survivors none (mergeOrder (ls.map (ofUser u)))))]
  constructor
  · rintro ⟨out,out',ho,ho',heq⟩
    rw [hout',Except.ok.injEq] at ho'
    exact ⟨out,ho,heq.trans ho'.symm⟩
  · rintro ⟨out,ho,heq⟩
    exact ⟨out,_,ho,hout',heq⟩

/-- What the default compaction leaves of `u` is what it leaves of the entries of `u` alone, if
and only if the file has fewer than 2^32 data blocks and the tie between the sources that hold
the newest version of `u` makes no difference. -/
theorem ties_iff (X : Crates) (opts : CompactionOptions) (sources sources' : List ArenaSource)
    (ls : List (List Entry)) (h : SortedInputs sources ls) (u : Bytes)
    (hy : List.Forall₂ Yields sources' (ls.map (ofUser u))) :
    ∃ bytes bytes', compact X sources opts = .ok bytes ∧ compact X sources' opts = .ok bytes' ∧
      ∀ reader reader' : FileReader, reader.contents = bytes → reader'.contents = bytes' →
        ((∃ out out', decodeSst X reader = .ok out ∧ decodeSst X reader' = .ok out' ∧
            ofUser u out = out') ↔
          dataBlockCount (written opts.sstBuilder (survivors none (mergeOrder ls))) < 2^32 ∧
            TiesAgree u ls) := by
  have h' : SortedInputs sources' (ls.map (ofUser u)) :=
    ⟨hy,ofUser_sorted h.sorted u,ofUser_keys h.wf u⟩
  obtain ⟨bytes,hb,-⟩ := h.compact_fileOf X opts
  obtain ⟨bytes',hb',-⟩ := h'.compact_fileOf X opts
  refine ⟨bytes,bytes',hb,hb',fun reader reader' hr hr' => ?_⟩
  subst hr
  subst hr'
  exact ties_read X opts h u hy hb hb'

theorem ties_sameKeys :
    ∃ bytes bytes', compact .idle (sameKeys.map .ofEntries) ⟨plainOptions⟩ = .ok bytes ∧
      compact .idle ((sameKeys.map (ofUser [7])).map .ofEntries) ⟨plainOptions⟩ = .ok bytes' ∧
      ∀ reader reader' : FileReader, reader.contents = bytes → reader'.contents = bytes' →
        ((∃ out out', decodeSst .idle reader = .ok out ∧ decodeSst .idle reader' = .ok out' ∧
            ofUser [7] out = out') ↔
          dataBlockCount (written plainOptions (survivors none (mergeOrder sameKeys))) < 2^32 ∧
            TiesAgree [7] sameKeys) :=
  ties_iff .idle ⟨plainOptions⟩ _ _ sameKeys sameKeys_inputs [7]
    (ofEntries_all_yield (by decide))

def unevenTie : List (List Entry) :=
  [[([7] ++ leBytes 8 0x101,[1])],
   [([1] ++ leBytes 8 0x101,[9]),([7] ++ leBytes 8 0x101,[2])]]

theorem unevenTie_inputs : SortedInputs (unevenTie.map .ofEntries) unevenTie :=
  SortedInputs.ofLists (by decide) (by decide) (by unfold KeysIn; decide)

theorem ties_unevenTie :
    SortedInputs (unevenTie.map .ofEntries) unevenTie ∧
    List.Forall₂ Yields ((unevenTie.map (ofUser [7])).map ArenaSource.ofEntries)
      (unevenTie.map (ofUser [7])) ∧
    ¬ ∃ bytes bytes', compact .idle (unevenTie.map .ofEntries) ⟨plainOptions⟩ = .ok bytes ∧
      compact .idle ((unevenTie.map (ofUser [7])).map .ofEntries) ⟨plainOptions⟩ = .ok bytes' ∧
      ∀ reader reader' : FileReader, reader.contents = bytes → reader'.contents = bytes' →
        ∃ out out', decodeSst .idle reader = .ok out ∧ decodeSst .idle reader' = .ok out' ∧
          ofUser [7] out = out' := by
  have hy : List.Forall₂ Yields ((unevenTie.map (ofUser [7])).map ArenaSource.ofEntries)
      (unevenTie.map (ofUser [7])) := ofEntries_all_yield (by decide)
  refine ⟨unevenTie_inputs,hy,?_⟩
  rintro ⟨bytes,bytes',hb,hb',hread⟩
  have h' : SortedInputs ((unevenTie.map (ofUser [7])).map .ofEntries)
      (unevenTie.map (ofUser [7])) :=
    ⟨hy,ofUser_sorted unevenTie_inputs.sorted _,ofUser_keys unevenTie_inputs.wf _⟩
  obtain ⟨reader,hc⟩ := unevenTie_inputs.opens plainOptions (by decide) (by decide) (by decide)
  obtain ⟨reader',hc'⟩ := h'.opens plainOptions (by decide) (by decide) (by decide)
  have hagree := ((ties_read .idle ⟨plainOptions⟩ unevenTie_inputs [7] hy hc hc').mp
    (hread reader reader' (Except.ok.inj (hc.symm.trans hb))
      (Except.ok.inj (hc'.symm.trans hb')))).2
  have hlog : Nat.clog 2 (max unevenTie.length 1) = 1 := Nat.clog_eq_one (by decide) (by decide)
  have htie := hagree ([7] ++ leBytes 8 0x101,[1]) (by decide) (by decide) (by decide)
  rw [hlog] at htie
  exact absurd htie (by decide)

end SstCompactor
