import Mathlib.Algebra.Group.Nat.Defs
import Mathlib.Data.List.Basic

/-!
Loser trees over a perfect binary tree in an array: node `n` has children `2*n` and
`2*n+1`, and the leaves of a tree with `k` of them sit at positions `k` to `2*k-1`.
An inner node holds the loser of its two subtrees' winners. The comparison of two
leaves is a parameter, so the same tree can be read before and after one leaf changes.
-/

set_option autoImplicit false

namespace Tournament

structure IsWeak (lt : Nat → Nat → Bool) : Prop where
  asymm : ∀ a b, lt a b = true → lt b a = false
  trans : ∀ a b c, lt b a = false → lt c b = false → lt c a = false

theorem IsWeak.irrefl {lt : Nat → Nat → Bool} (h : IsWeak lt) (a : Nat) : lt a a = false := by
  cases ha : lt a a with
  | false => rfl
  | true =>
    have hn := h.asymm a a ha
    rw [ha] at hn
    exact hn

/-- Leaf `w` wins the subtree of height `h` under node `n`. Which of the two winners
a tie goes to is left open: building and replaying decide it differently. -/
def Plays (k : Nat) (tree : List Nat) (lt : Nat → Nat → Bool) : Nat → Nat → Nat → Prop
  | 0, n, w => n = k+w
  | h+1, n, w => ∃ a b, Plays k tree lt h (2*n) a ∧ Plays k tree lt h (2*n+1) b ∧
      ((w = a ∧ tree[n]? = some b ∧ lt b a = false) ∨
       (w = b ∧ tree[n]? = some a ∧ lt a b = false))

theorem div_child {m n h : Nat} (hm : m/2^h = 2*n ∨ m/2^h = 2*n+1) : m/2^(h+1) = n := by
  rw [Nat.pow_succ,← Nat.div_div_eq_div_mul]
  omega

theorem child_of_div {m n h : Nat} (hm : m/2^(h+1) = n) : m/2^h = 2*n ∨ m/2^h = 2*n+1 := by
  rw [Nat.pow_succ,← Nat.div_div_eq_div_mul] at hm
  omega

theorem plays_leaf {k h n w : Nat} {tree : List Nat} {lt : Nat → Nat → Bool}
    (hp : Plays k tree lt h n w) : (k+w)/2^h = n := by
  induction h generalizing n w with
  | zero =>
    simp only [Plays] at hp
    simp [hp]
  | succ h ih =>
    obtain ⟨a,b,ha,hb,⟨rfl,-,-⟩ | ⟨rfl,-,-⟩⟩ := hp
    · exact div_child (.inl (ih ha))
    · exact div_child (.inr (ih hb))

theorem plays_min {k h n w : Nat} {tree : List Nat} {lt : Nat → Nat → Bool}
    (hw : IsWeak lt) (hp : Plays k tree lt h n w) (i : Nat) (hi : (k+i)/2^h = n) :
    lt i w = false := by
  induction h generalizing n w with
  | zero =>
    have hi : i = w := by
      simp only [Plays] at hp
      simp only [Nat.pow_zero,Nat.div_one] at hi
      omega
    rw [hi]
    exact hw.irrefl w
  | succ h ih =>
    obtain ⟨a,b,ha,hb,⟨rfl,-,hl⟩ | ⟨rfl,-,hl⟩⟩ := hp
    · rcases child_of_div hi with hi | hi
      · exact ih ha hi
      · exact hw.trans w b i hl (ih hb hi)
    · rcases child_of_div hi with hi | hi
      · exact hw.trans w a i hl (ih ha hi)
      · exact ih hb hi

/-- `Below n m`: node or leaf position `m` lies in the subtree of `n`. -/
def Below (n m : Nat) : Prop := ∃ e, m/2^e = n

theorem Below.refl (n : Nat) : Below n n := ⟨0,by simp⟩

theorem Below.of_child {n m c : Nat} (hc : c = 2*n ∨ c = 2*n+1) (h : Below c m) :
    Below n m := by
  obtain ⟨e,he⟩ := h
  exact ⟨e+1,div_child (by omega)⟩

theorem Below.le {n m : Nat} (h : Below n m) : n ≤ m := by
  obtain ⟨e,rfl⟩ := h
  exact Nat.div_le_self m (2^e)

theorem Below.trans {a b c : Nat} (h₁ : Below a b) (h₂ : Below b c) : Below a c := by
  obtain ⟨e,rfl⟩ := h₁
  obtain ⟨f,rfl⟩ := h₂
  exact ⟨f+e,by rw [Nat.pow_add,Nat.div_div_eq_div_mul]⟩

theorem not_below_parent {n c : Nat} (hn : 1 ≤ n) (hc : c = 2*n ∨ c = 2*n+1) :
    ¬ Below c n := by
  intro h
  have := h.le
  omega

theorem Below.total {a b m : Nat} (ha : Below a m) (hb : Below b m) : Below a b ∨ Below b a := by
  obtain ⟨e,rfl⟩ := ha
  obtain ⟨f,rfl⟩ := hb
  rcases Nat.le_total e f with h | h
  · right
    exact ⟨f-e,by rw [Nat.div_div_eq_div_mul,← Nat.pow_add,Nat.add_sub_cancel' h]⟩
  · left
    exact ⟨e-f,by rw [Nat.div_div_eq_div_mul,← Nat.pow_add,Nat.add_sub_cancel' h]⟩

theorem Below.parent {a b : Nat} (h : Below a b) (hne : a ≠ b) : Below a (b/2) := by
  obtain ⟨e,rfl⟩ := h
  cases e with
  | zero => simp at hne
  | succ e => exact ⟨e,by rw [Nat.div_div_eq_div_mul,Nat.pow_succ,Nat.mul_comm]⟩

theorem below_disjoint {n m : Nat} (hn : 1 ≤ n) (hl : Below (2*n) m) :
    ¬ Below (2*n+1) m := by
  intro hr
  rcases hl.total hr with h | h
  · have hp := (h.parent (by omega)).le
    omega
  · have := h.le
    omega

theorem getElem?_set_child {n c m : Nat} (tree : List Nat) (v : Nat) (hn : 1 ≤ n)
    (hc : c = 2*n ∨ c = 2*n+1) (hm : Below c m) : (tree.set n v)[m]? = tree[m]? := by
  apply List.getElem?_set_ne
  intro hh
  subst hh
  exact not_below_parent hn hc hm

/-- A subtree's winner depends only on the tree below its node and on the
comparisons of the leaves below it. -/
theorem Plays.frame {k h n w : Nat} {tree tree' : List Nat} {lt lt' : Nat → Nat → Bool}
    (hn : 1 ≤ n) (hp : Plays k tree lt h n w)
    (ht : ∀ m, Below n m → tree'[m]? = tree[m]?)
    (hl : ∀ i j, Below n (k+i) → Below n (k+j) → lt' i j = lt i j) :
    Plays k tree' lt' h n w := by
  induction h generalizing n w with
  | zero => exact hp
  | succ h ih =>
    obtain ⟨a,b,ha,hb,hc⟩ := hp
    have hba : Below n (k+a) := Below.of_child (.inl rfl) ⟨h,plays_leaf ha⟩
    have hbb : Below n (k+b) := Below.of_child (.inr rfl) ⟨h,plays_leaf hb⟩
    refine ⟨a,b,ih (by omega) ha ?_ ?_,ih (by omega) hb ?_ ?_,?_⟩
    · exact fun m hm => ht m (hm.of_child (.inl rfl))
    · exact fun i j hi hj => hl i j (hi.of_child (.inl rfl)) (hj.of_child (.inl rfl))
    · exact fun m hm => ht m (hm.of_child (.inr rfl))
    · exact fun i j hi hj => hl i j (hi.of_child (.inr rfl)) (hj.of_child (.inr rfl))
    · rw [ht n (Below.refl n),hl b a hbb hba,hl a b hba hbb]
      exact hc

structure Spans (k h n : Nat) : Prop where
  pos : 1 ≤ n
  lo : k ≤ n*2^h
  hi : (n+1)*2^h ≤ 2*k

theorem mul_pow_succ (i h : Nat) : i*2^(h+1) = 2*i*2^h := by
  rw [Nat.pow_succ,Nat.mul_comm (2^h),← Nat.mul_assoc,Nat.mul_comm i]

theorem right_start {k n h : Nat} (hk : k ≤ 2*n*2^h) :
    k ≤ (2*n+1)*2^h ∧ (2*n+1)*2^h-k = 2*n*2^h-k+2^h := by
  rw [Nat.add_mul,Nat.one_mul]
  exact ⟨Nat.le_add_right_of_le hk,Nat.sub_add_comm hk⟩

theorem Spans.inner {k h n : Nat} (hs : Spans k (h+1) n) : n < k := by
  have hle : 2*(n+1)*1 ≤ 2*(n+1)*2^h := Nat.mul_le_mul_left _ Nat.one_le_two_pow
  have hhi := hs.hi
  rw [mul_pow_succ] at hhi
  omega

theorem Spans.left {k h n : Nat} (hs : Spans k (h+1) n) : Spans k h (2*n) := by
  obtain ⟨hpos,hlo,hhi⟩ := hs
  rw [mul_pow_succ] at hlo hhi
  have hle : (2*n+1)*2^h ≤ 2*(n+1)*2^h := Nat.mul_le_mul_right _ (by omega)
  exact ⟨by omega,hlo,Nat.le_trans hle hhi⟩

theorem Spans.right {k h n : Nat} (hs : Spans k (h+1) n) : Spans k h (2*n+1) := by
  obtain ⟨hpos,hlo,hhi⟩ := hs
  rw [mul_pow_succ] at hlo hhi
  have hle : 2*n*2^h ≤ (2*n+1)*2^h := Nat.mul_le_mul_right _ (by omega)
  exact ⟨by omega,Nat.le_trans hlo hle,hhi⟩

/-- One match of a contender that climbs towards the root: it loses ties. -/
def meet (lt : Nat → Nat → Bool) (s : List Nat × Nat) (node : Nat) : List Nat × Nat :=
  match s.1[node]? with
  | none => s
  | some l => if lt s.2 l then s else (s.1.set node s.2,l)

def climb (lt : Nat → Nat → Bool) (tree : List Nat) (leaf w : Nat) : Nat → List Nat × Nat
  | 0 => (tree,w)
  | j+1 => meet lt (climb lt tree leaf w j) (leaf/2^(j+1))

theorem meet_length (lt : Nat → Nat → Bool) (s : List Nat × Nat) (node : Nat) :
    (meet lt s node).1.length = s.1.length := by
  unfold meet
  split
  · rfl
  · split
    · rfl
    · simp

theorem climb_length (lt : Nat → Nat → Bool) (tree : List Nat) (leaf w j : Nat) :
    (climb lt tree leaf w j).1.length = tree.length := by
  induction j with
  | zero => rfl
  | succ j ih => rw [climb,meet_length,ih]

theorem meet_other (lt : Nat → Nat → Bool) (s : List Nat × Nat) {node m : Nat}
    (hm : m ≠ node) : (meet lt s node).1[m]? = s.1[m]? := by
  unfold meet
  split
  · rfl
  · split
    · rfl
    · exact List.getElem?_set_ne (Ne.symm hm)

theorem climb_other (lt : Nat → Nat → Bool) (tree : List Nat) (leaf w j : Nat) {m : Nat}
    (hm : ∀ i, i < j → m ≠ leaf/2^(i+1)) :
    (climb lt tree leaf w j).1[m]? = tree[m]? := by
  induction j with
  | zero => rfl
  | succ j ih =>
    rw [climb,meet_other lt _ (hm j (by omega)),ih (fun i hi => hm i (by omega))]

theorem climb_outside (lt : Nat → Nat → Bool) (tree : List Nat) (leaf w j : Nat) {d m : Nat}
    (hd : ¬ Below d leaf) (hm : Below d m) : (climb lt tree leaf w j).1[m]? = tree[m]? := by
  apply climb_other
  rintro i - rfl
  exact hd (hm.trans ⟨i+1,rfl⟩)

theorem climb_above (lt : Nat → Nat → Bool) (tree : List Nat) {leaf w h n : Nat} (hn : 1 ≤ n)
    (hleaf : leaf/2^(h+1) = n) : (climb lt tree leaf w h).1[n]? = tree[n]? := by
  apply climb_other
  intro i hi hni
  have hchild : n < leaf/2^h := by
    rcases child_of_div hleaf with he | he <;> omega
  have hle : leaf/2^h ≤ leaf/2^(i+1) :=
    Nat.div_le_div_left (Nat.pow_le_pow_right (by decide) (by omega)) (Nat.two_pow_pos _)
  omega

/-- Meeting the stored loser replays the node: the climbing contender has won its own
side `c`, the other side `d` is as it was, and its winner is what the node stores. -/
theorem meet_plays {k h n w x l : Nat} {tree : List Nat} {lt : Nat → Nat → Bool}
    (hw : IsWeak lt) (hn : 1 ≤ n) {c d : Nat}
    (hcd : (c = 2*n ∧ d = 2*n+1) ∨ (c = 2*n+1 ∧ d = 2*n))
    (hc : Plays k tree lt h c x) (hd : Plays k tree lt h d l) (ht : tree[n]? = some l)
    (hx : (meet lt (tree,x) n).2 = w) :
    Plays k (meet lt (tree,x) n).1 lt (h+1) n w := by
  have hlen : n < tree.length := (List.getElem?_eq_some_iff.mp ht).1
  have hcn : c = 2*n ∨ c = 2*n+1 := by omega
  have hdn : d = 2*n ∨ d = 2*n+1 := by omega
  cases hxl : lt x l with
  | true =>
    have hm : meet lt (tree,x) n = (tree,x) := by simp [meet,ht,hxl]
    rw [hm] at hx ⊢
    subst hx
    rcases hcd with ⟨rfl,rfl⟩ | ⟨rfl,rfl⟩
    · exact ⟨x,l,hc,hd,.inl ⟨rfl,ht,hw.asymm x l hxl⟩⟩
    · exact ⟨l,x,hd,hc,.inr ⟨rfl,ht,hw.asymm x l hxl⟩⟩
  | false =>
    have hm : meet lt (tree,x) n = (tree.set n x,l) := by simp [meet,ht,hxl]
    have hset : ∀ e, (e = 2*n ∨ e = 2*n+1) → ∀ m, Below e m →
        (tree.set n x)[m]? = tree[m]? := fun _ he _ => getElem?_set_child tree x hn he
    have hc' := hc.frame (by omega) (hset c hcn) (fun _ _ _ _ => rfl)
    have hd' := hd.frame (by omega) (hset d hdn) (fun _ _ _ _ => rfl)
    have hself : (tree.set n x)[n]? = some x := by simp [hlen]
    rw [hm] at hx ⊢
    subst hx
    rcases hcd with ⟨rfl,rfl⟩ | ⟨rfl,rfl⟩
    · exact ⟨x,l,hc',hd',.inr ⟨rfl,hself,hxl⟩⟩
    · exact ⟨l,x,hd',hc',.inl ⟨rfl,hself,hxl⟩⟩

/-- After the winner's leaf alone has changed, replaying its path restores the tree.
The induction is on the height: below node `n` the path is already replayed, and the
sibling subtree is untouched because no node above the leaf lies in it. -/
theorem climb_plays {k h n w : Nat} {tree : List Nat} {lt lt' : Nat → Nat → Bool}
    (hw : IsWeak lt') (hn : 1 ≤ n) (hp : Plays k tree lt h n w)
    (hl : ∀ i j, i ≠ w → j ≠ w → lt' i j = lt i j) :
    Plays k (climb lt' tree (k+w) w h).1 lt' h n (climb lt' tree (k+w) w h).2 := by
  induction h generalizing n with
  | zero => exact hp
  | succ h ih =>
    obtain ⟨a,b,ha,hb,hc⟩ := hp
    have hleaf : (k+w)/2^(h+1) = n := by
      rcases hc with ⟨rfl,-,-⟩ | ⟨rfl,-,-⟩
      · exact div_child (.inl (plays_leaf ha))
      · exact div_child (.inr (plays_leaf hb))
    -- The sibling's subtree holds no ancestor of the leaf and not the leaf itself.
    have hsib : ∀ (d l : Nat), 1 ≤ d → ¬ Below d (k+w) → Plays k tree lt h d l →
        Plays k (climb lt' tree (k+w) w h).1 lt' h d l := by
      intro d l hd hnot hdl
      refine hdl.frame hd (fun m hm => climb_outside lt' tree (k+w) w h hnot hm) ?_
      intro i j hi hj
      exact hl i j (by rintro rfl; exact hnot hi) (by rintro rfl; exact hnot hj)
    have hstore := climb_above lt' tree (w:=w) hn hleaf
    rw [climb,hleaf]
    rcases hc with ⟨rfl,ht,-⟩ | ⟨rfl,ht,-⟩
    · have hnot : ¬ Below (2*n+1) (k+w) := below_disjoint hn ⟨h,plays_leaf ha⟩
      exact meet_plays hw hn (.inl ⟨rfl,rfl⟩) (ih (by omega) ha)
        (hsib (2*n+1) b (by omega) hnot hb) (by rw [hstore,ht]) rfl
    · have hnot : ¬ Below (2*n) (k+w) :=
        fun hb' => below_disjoint hn hb' ⟨h,plays_leaf hb⟩
      exact meet_plays hw hn (.inr ⟨rfl,rfl⟩) (ih (by omega) hb)
        (hsib (2*n) a (by omega) hnot ha) (by rw [hstore,ht]) rfl

end Tournament
