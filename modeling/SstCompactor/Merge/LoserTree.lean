import SstCompactor.Merge.Source
import SstCompactor.Kway.Mirror
import SstCompactor.Kway.Drain
import Mathlib.Data.List.Forall2

/-!
The loser-tree merger. Leaf `i` is source `i`; leaves past the last source are phantoms
that always lose. The proofs read the tree through `Tournament.Plays`, with leaves
compared by the fronts of the lists the sources still have to hand out.
-/

set_option autoImplicit false

namespace SstCompactor
open Tournament Kway

structure LoserTreeMerger (S : Type) where
  sources : List S
  tree : List Nat
  winner : Nat
  kPadded : Nat

/-- `usize::MAX`. -/
def noneYet : Nat := 2^64-1

/-- `usize::next_power_of_two`. -/
def nextPowerOfTwo (n : Nat) : Nat := 2^Nat.clog 2 n

/-- `xs[i] = v`. -/
def setIndex {α : Type} (xs : List α) (i : Nat) (v : α) : Exec (List α) :=
  if i < xs.length then .ok (xs.set i v) else .error .outOfRange

namespace LoserTreeMerger

variable {S : Type} [MergeSource S] (C : KeyComparator)

def peekAt (m : LoserTreeMerger S) (leaf : Nat) : Exec (Option Entry) :=
  if leaf ≥ m.sources.length then .ok none
  else do
    let s ← index m.sources leaf
    MergeSource.peek s

def less (m : LoserTreeMerger S) (a b : Nat) : Exec Bool := do
  match ← m.peekAt a, ← m.peekAt b with
  | some (ka,_), some (kb,_) =>
      let o ← compareWithPrefix C ka kb
      pure (o == .lt)
  | some _, none => pure true
  | none, some _ => pure false
  | none, none => pure false

def buildSubtree : (fuel : Nat) → LoserTreeMerger S → (node : Nat) →
    Exec (Nat × LoserTreeMerger S)
  | 0, _, _ => .error .outOfFuel
  | fuel+1, m, node =>
    if node ≥ m.kPadded then .ok (node-m.kPadded,m)
    else do
      let (left,m) ← buildSubtree fuel m (2*node)
      let (right,m) ← buildSubtree fuel m (2*node+1)
      let isLess ← m.less C left right
      let (winner,loser) := if isLess then (left,right) else (right,left)
      let tree ← setIndex m.tree node loser
      pure (winner,{ m with tree := tree })

def build (m : LoserTreeMerger S) : Exec (LoserTreeMerger S) := do
  let (winner,m) ← buildSubtree C (m.kPadded+1) m 1
  pure { m with winner := winner }

/-- The `while` loop of `replay_from_leaf`. -/
def replay : (fuel : Nat) → LoserTreeMerger S → (node contender : Nat) →
    Exec (LoserTreeMerger S)
  | 0, _, _, _ => .error .outOfFuel
  | fuel+1, m, node, contender =>
    if node ≥ 1 then do
      let loserHere ← index m.tree node
      let isLess ← m.less C contender loserHere
      let (tree,contender) ← if !isLess then do
          let tree ← setIndex m.tree node contender
          pure (tree,loserHere)
        else pure (m.tree,contender)
      if node = 1 then pure { m with tree := tree, winner := contender }
      else replay fuel { m with tree := tree } (node/2) contender
    else pure m

def replayFromLeaf (m : LoserTreeMerger S) (leaf : Nat) : Exec (LoserTreeMerger S) :=
  let node := (leaf+m.kPadded)/2
  replay C (node+1) m node leaf

def new (sources : List S) : Exec (LoserTreeMerger S) :=
  let kPadded := nextPowerOfTwo (max sources.length 1)
  build C ⟨sources,List.replicate kPadded noneYet,0,kPadded⟩

/-- The entries `f` is called with, in order, and the merger afterwards. -/
def run : (fuel : Nat) → LoserTreeMerger S → Exec (List Entry × LoserTreeMerger S)
  | 0, _ => .error .outOfFuel
  | fuel+1, m =>
    if m.winner ≥ m.sources.length then .ok ([],m)
    else do
      let s ← index m.sources m.winner
      match ← MergeSource.peek s with
      | none => pure ([],m)
      | some kv => do
          let winner := m.winner
          let m ← replayFromLeaf C
            { m with sources := m.sources.set winner (MergeSource.advance s) } winner
          let (rest,m) ← run fuel m
          pure (kv :: rest,m)

end LoserTreeMerger

section
variable {S : Type} [MergeSource S] {C : KeyComparator} {D : Bytes → Prop}
  {cmp : Bytes → Bytes → Ordering}

def front (ls : List (List Entry)) (i : Nat) : Option Bytes :=
  ((ls[i]?).bind List.head?).map Prod.fst

def frontLt (cmp : Bytes → Bytes → Ordering) (ls : List (List Entry)) (a b : Nat) : Bool :=
  match front ls a, front ls b with
  | some ka, some kb => cmp ka kb == .lt
  | some _, none => true
  | none, _ => false

def KeysIn (D : Bytes → Prop) (ls : List (List Entry)) : Prop := ∀ l ∈ ls, ∀ e ∈ l, D e.1

theorem front_mem {ls : List (List Entry)} {i : Nat} {k : Bytes} (h : front ls i = some k) :
    ∃ e es, ls[i]? = some (e :: es) ∧ e.1 = k := by
  simp only [front,Option.map_eq_some_iff,Option.bind_eq_some_iff] at h
  obtain ⟨e,⟨l,hl,he⟩,hk⟩ := h
  cases l with
  | nil => simp at he
  | cons x xs =>
    simp only [List.head?_cons,Option.some.injEq] at he
    subst he
    exact ⟨x,xs,hl,hk⟩

theorem KeysIn.front {ls : List (List Entry)} (h : KeysIn D ls) {i : Nat} {k : Bytes}
    (hf : front ls i = some k) : D k := by
  obtain ⟨e,es,hl,rfl⟩ := front_mem hf
  exact h _ (List.mem_of_getElem? hl) e List.mem_cons_self

theorem KeysIn.set {ls : List (List Entry)} (h : KeysIn D ls) {i : Nat} {e : Entry}
    {rest : List Entry} (hi : ls[i]? = some (e :: rest)) : KeysIn D (ls.set i rest) := by
  intro l hl x hx
  rcases List.mem_or_eq_of_mem_set hl with hl | rfl
  · exact h l hl x hx
  · exact h _ (List.mem_of_getElem? hi) x (List.mem_cons_of_mem e hx)

theorem frontLt_isWeak (hC : OrdersAs C D cmp) {ls : List (List Entry)} (hD : KeysIn D ls) :
    IsWeak (frontLt cmp ls) where
  asymm := by
    intro a b h
    unfold frontLt at h ⊢
    cases ha : front ls a with
    | none => simp [ha] at h
    | some ka =>
      cases hb : front ls b with
      | none => rfl
      | some kb =>
        simp only [ha,hb,beq_iff_eq] at h ⊢
        rw [hC.swap ka kb (hD.front ha) (hD.front hb),h]
        rfl
  trans := by
    intro a b c h₁ h₂
    unfold frontLt at h₁ h₂ ⊢
    cases hc : front ls c with
    | none => rfl
    | some kc =>
      cases hb : front ls b with
      | none => simp [hc,hb] at h₂
      | some kb =>
        cases ha : front ls a with
        | none => simp [ha,hb] at h₁
        | some ka =>
          have dA := hD.front ha
          have dB := hD.front hb
          have dC := hD.front hc
          simp only [ha,hb,hc,beq_eq_false_iff_ne] at h₁ h₂ ⊢
          have hab : cmp ka kb ≠ .gt := by
            intro hg
            rw [hC.swap ka kb dA dB,hg] at h₁
            exact h₁ rfl
          have hbc : cmp kb kc ≠ .gt := by
            intro hg
            rw [hC.swap kb kc dB dC,hg] at h₂
            exact h₂ rfl
          intro hl
          apply hC.trans ka kb kc dA dB dC hab hbc
          rw [hC.swap kc ka dC dA,hl]
          rfl

theorem peekAt_eq {m : LoserTreeMerger S} {ls : List (List Entry)}
    (hy : List.Forall₂ Yields m.sources ls) (leaf : Nat) :
    m.peekAt leaf = .ok ((ls[leaf]?).bind List.head?) := by
  unfold LoserTreeMerger.peekAt
  have hl := hy.length_eq
  split
  · rename_i hge
    rw [List.getElem?_eq_none (by omega)]
    rfl
  · rename_i hlt
    have hs : leaf < m.sources.length := by omega
    have hls : leaf < ls.length := by omega
    have hys := hy.get hs hls
    simp only [List.get_eq_getElem] at hys
    rw [index_of_getElem? (List.getElem?_eq_getElem hs),ok_bind,hys.peek,
      List.getElem?_eq_getElem hls]
    rfl

def entryLt (cmp : Bytes → Bytes → Ordering) (x y : Entry) : Bool := cmp x.1 y.1 == .lt

theorem frontLt_eq (cmp : Bytes → Bytes → Ordering) (ls : List (List Entry)) :
    frontLt cmp ls = headLt (entryLt cmp) ls := by
  funext a b
  simp only [frontLt,headLt,front,headOf]
  cases (ls[a]?).bind List.head? with
  | none => rfl
  | some x => cases (ls[b]?).bind List.head? <;> rfl

theorem less_fair (hC : OrdersAs C D cmp) {m : LoserTreeMerger S} {ls : List (List Entry)}
    (hy : List.Forall₂ Yields m.sources ls) {a b : Nat}
    (hf : ∀ x y, headOf ls a = some x → headOf ls b = some y → D x.1 ∧ D y.1) :
    m.less C a b = .ok (frontLt cmp ls a b) := by
  unfold LoserTreeMerger.less frontLt
  rw [peekAt_eq hy a,peekAt_eq hy b]
  simp only [ok_bind,front]
  cases ha : (ls[a]?).bind List.head? with
  | none => cases hb : (ls[b]?).bind List.head? <;> rfl
  | some x =>
    cases hb : (ls[b]?).bind List.head? with
    | none => rfl
    | some y =>
      obtain ⟨dx,dy⟩ := hf x y ha hb
      simp [hC.compareWithPrefix_eq dx dy]

theorem KeysIn.head {ls : List (List Entry)} (h : KeysIn D ls) {i : Nat} {x : Entry}
    (hx : headOf ls i = some x) : D x.1 := by
  apply h.front (i:=i)
  rw [headOf] at hx
  rw [SstCompactor.front,hx]
  rfl

theorem setIndex_ok {xs : List Nat} {i : Nat} (h : i < xs.length) (v : Nat) :
    setIndex xs i v = .ok (xs.set i v) := by
  simp [setIndex,h]

/-- Building a subtree of height `h` fills in the nodes below its root and no others,
and returns the subtree's winner. -/
theorem buildSubtree_mirrors (hC : OrdersAs C D cmp) {ls : List (List Entry)} (h fuel : Nat)
    (m : LoserTreeMerger S) (n : Nat) (hy : List.Forall₂ Yields m.sources ls)
    (hlen : m.tree.length = m.kPadded) (hn : Spans m.kPadded h n) (hf : h < fuel)
    (hs : (fullUnder m.kPadded ls h n).Safe (entryLt cmp) (fun e => D e.1)) :
    ∃ w tree, LoserTreeMerger.buildSubtree C fuel m n = .ok (w,{ m with tree := tree }) ∧
      Mirrors (entryLt cmp) m.kPadded tree ls h n w (fullUnder m.kPadded ls h n) ∧
      tree.length = m.tree.length ∧ ∀ j, ¬ Below n j → tree[j]? = m.tree[j]? := by
  induction h generalizing fuel m n with
  | zero =>
    obtain ⟨fuel,rfl⟩ := Nat.exists_eq_succ_of_ne_zero (show fuel ≠ 0 by omega)
    have hge : n ≥ m.kPadded := by simpa using hn.lo
    refine ⟨n-m.kPadded,m.tree,?_,⟨by omega,rfl,rfl⟩,rfl,fun _ _ => rfl⟩
    simp [LoserTreeMerger.buildSubtree,hge]
  | succ h ih =>
    obtain ⟨fuel,rfl⟩ := Nat.exists_eq_succ_of_ne_zero (show fuel ≠ 0 by omega)
    have hlt := hn.inner
    obtain ⟨hsa,hsb,hsab⟩ := hs
    obtain ⟨a,t₁,hb₁,hp₁,hl₁,ho₁⟩ := ih fuel m (2*n) hy hlen hn.left (by omega) hsa
    obtain ⟨b,t₂,hb₂,hp₂,hl₂,ho₂⟩ := ih fuel { m with tree := t₁ } (2*n+1) hy
      (hl₁.trans hlen) hn.right (by omega) hsb
    simp only at hl₂ ho₂ hp₂ hb₂
    have hnl : n < t₂.length := by omega
    -- The right subtree's matches leave the left one's as they are.
    have hp₁' : Mirrors (entryLt cmp) m.kPadded t₂ ls h (2*n) a
        (fullUnder m.kPadded ls h (2*n)) :=
      hp₁.frame (fun j hj => ho₂ j (below_disjoint hn.pos hj)) (fun _ _ => rfl)
    have hless := less_fair hC (m:={ m with tree := t₂ }) hy (a:=a) (b:=b) (by
      intro x y hx hy
      exact hsab (a,x) (b,y) (by rw [mirrors_front hp₁,hx]; rfl)
        (by rw [mirrors_front hp₂,hy]; rfl))
    have hnode := mirrors_first hn.pos hnl hp₁' hp₂
    rw [← frontLt_eq] at hnode
    refine ⟨_,_,?_,hnode,by simp [hl₁,hl₂],?_⟩
    · have hge : ¬ n ≥ m.kPadded := by omega
      simp only [LoserTreeMerger.buildSubtree,hge,↓reduceIte,hb₁,ok_bind,hb₂,hless]
      cases hab : frontLt cmp ls a b <;> simp [setIndex_ok hnl]
    · intro j hj
      have hjn : n ≠ j := by
        intro hh
        subst hh
        exact hj (Below.refl n)
      rw [List.getElem?_set_ne hjn,ho₂ j (fun hc => hj (hc.of_child (.inr rfl))),
        ho₁ j (fun hc => hj (hc.of_child (.inl rfl)))]

theorem replay_step (hC : OrdersAs C D cmp) {ls : List (List Entry)} (m : LoserTreeMerger S)
    (hy : List.Forall₂ Yields m.sources ls) {node contender fuel : Nat} (hn : 1 ≤ node)
    (hlen : node < m.tree.length) (hf : Fair (fun e => D e.1) ls (m.tree,contender) node) :
    LoserTreeMerger.replay C (fuel+1) m node contender =
      if node = 1 then
        .ok { m with
          tree := (meet (frontLt cmp ls) (m.tree,contender) node).1,
          winner := (meet (frontLt cmp ls) (m.tree,contender) node).2 }
      else
        LoserTreeMerger.replay C fuel
          { m with tree := (meet (frontLt cmp ls) (m.tree,contender) node).1 } (node/2)
          (meet (frontLt cmp ls) (m.tree,contender) node).2 := by
  obtain ⟨l,hl⟩ : ∃ l, m.tree[node]? = some l := ⟨_,List.getElem?_eq_getElem hlen⟩
  have hless := less_fair hC hy (fun x y => hf l x y hl)
  cases hlt : frontLt cmp ls contender l with
  | true =>
    simp [LoserTreeMerger.replay,hn,index_of_getElem? hl,hless,hlt,meet,hl]
  | false =>
    simp [LoserTreeMerger.replay,hn,index_of_getElem? hl,hless,hlt,meet,hl,setIndex_ok hlen]

theorem path_node {H leaf j r : Nat} (hleaf : leaf/2^H = 1) (hr : j+r+1 = H) :
    1 ≤ leaf/2^(j+1) ∧ leaf/2^(j+1) < 2^H ∧ (leaf/2^(j+1) = 1 ↔ r = 0) := by
  have hup : leaf/2^(j+1)/2^r = 1 := by
    rw [Nat.div_div_eq_div_mul,← Nat.pow_add,show j+1+r = H by omega,hleaf]
  have hlt : leaf < 2^H*2 := by
    have := Nat.lt_mul_div_succ leaf (Nat.two_pow_pos H)
    rwa [hleaf] at this
  have hhalf : leaf/2^(j+1) ≤ leaf/2^1 :=
    Nat.div_le_div_left (Nat.pow_le_pow_right (by decide) (by omega)) (by decide)
  have hself := Nat.div_le_self (leaf/2^(j+1)) (2^r)
  refine ⟨by omega,by omega,?_⟩
  constructor
  · intro hone
    rw [hone] at hup
    cases r with
    | zero => rfl
    | succ r =>
      rw [Nat.div_eq_of_lt (Nat.one_lt_two_pow (by omega))] at hup
      omega
  · intro hh
    subst hh
    simpa using hup

theorem replay_first (hC : OrdersAs C D cmp) {ls : List (List Entry)} (m : LoserTreeMerger S)
    (hy : List.Forall₂ Yields m.sources ls) {H leaf w : Nat} (tree : List Nat)
    (hlen : tree.length = 2^H) (hleaf : leaf/2^H = 1) (q fuel : Nat) (hq : q < H)
    (hf : ∀ i < q, Fair (fun e => D e.1) ls (climb (frontLt cmp ls) tree leaf w i)
      (leaf/2^(i+1))) :
    LoserTreeMerger.replay C (fuel+q) { m with tree := tree } (leaf/2) w =
      LoserTreeMerger.replay C fuel
        { m with tree := (climb (frontLt cmp ls) tree leaf w q).1 } (leaf/2^(q+1))
        (climb (frontLt cmp ls) tree leaf w q).2 := by
  induction q generalizing fuel with
  | zero => rw [Nat.add_zero,Nat.zero_add,Nat.pow_one,climb]
  | succ q ih =>
    obtain ⟨hnode,hin,hroot⟩ := path_node (j:=q) (r:=H-q-1) hleaf (by omega)
    have hne : leaf/2^(q+1) ≠ 1 := by rw [ne_eq,hroot]; omega
    have hhalf : leaf/2^(q+1)/2 = leaf/2^(q+1+1) := by
      rw [Nat.div_div_eq_div_mul,← Nat.pow_succ]
    rw [show fuel+(q+1) = fuel+1+q by omega,
      ih (fuel+1) (by omega) (fun i hi => hf i (by omega)),
      replay_step hC { m with tree := (climb (frontLt cmp ls) tree leaf w q).1 } hy hnode
        (by simpa only [climb_length,hlen] using hin) (hf q (by omega)),
      if_neg hne,hhalf,climb]

theorem replay_climb (hC : OrdersAs C D cmp) {ls : List (List Entry)} (m : LoserTreeMerger S)
    (hy : List.Forall₂ Yields m.sources ls) {H leaf w : Nat} (tree : List Nat)
    (hlen : tree.length = 2^(H+1)) (hleaf : leaf/2^(H+1) = 1) {fuel : Nat} (hfuel : H < fuel)
    (hf : ∀ i < H+1, Fair (fun e => D e.1) ls (climb (frontLt cmp ls) tree leaf w i)
      (leaf/2^(i+1))) :
    LoserTreeMerger.replay C fuel { m with tree := tree } (leaf/2) w =
      .ok { m with
        tree := (climb (frontLt cmp ls) tree leaf w (H+1)).1,
        winner := (climb (frontLt cmp ls) tree leaf w (H+1)).2 } := by
  obtain ⟨f,rfl⟩ := Nat.exists_eq_add_of_lt hfuel
  obtain ⟨hnode,hin,hroot⟩ := path_node (j:=H) (r:=0) hleaf (by omega)
  rw [show H+f+1 = f+1+H by omega,replay_first hC m hy tree hlen hleaf H (f+1) (by omega)
      (fun i hi => hf i (by omega)),
    replay_step hC { m with tree := (climb (frontLt cmp ls) tree leaf w H).1 } hy hnode
      (by simpa only [climb_length,hlen] using hin) (hf H (by omega)),
    if_pos (hroot.mpr rfl),climb]

/-- Replaying the winner's path, when none of the matches is between keys outside `D`. -/
theorem replayFromLeaf_climb (hC : OrdersAs C D cmp) {ls : List (List Entry)}
    (m : LoserTreeMerger S) (hy : List.Forall₂ Yields m.sources ls) {H : Nat}
    (hk : m.kPadded = 2^H) (hlen : m.tree.length = 2^H) (hleaf : (2^H+m.winner)/2^H = 1)
    (hf : ∀ i < H, Fair (fun e => D e.1) ls
      (climb (frontLt cmp ls) m.tree (2^H+m.winner) m.winner i) ((2^H+m.winner)/2^(i+1))) :
    LoserTreeMerger.replayFromLeaf C m m.winner = .ok { m with
      tree := (climb (frontLt cmp ls) m.tree (2^H+m.winner) m.winner H).1,
      winner := (climb (frontLt cmp ls) m.tree (2^H+m.winner) m.winner H).2 } := by
  have hnode : (m.winner+m.kPadded)/2 = (2^H+m.winner)/2 := by rw [hk,Nat.add_comm]
  rw [LoserTreeMerger.replayFromLeaf,hnode]
  cases H with
  | zero =>
    -- One leaf: there is no match to replay and the winner stays.
    have hw0 : m.winner = 0 := by omega
    have hnone : ¬ (2^0+m.winner)/2 ≥ 1 := by rw [hw0]; decide
    simp only [LoserTreeMerger.replay,hnone,↓reduceIte,pure_eq_ok,climb]
  | succ H =>
    refine replay_climb hC m hy m.tree hlen hleaf ?_ hf
    have := Nat.lt_two_pow_self (n:=H)
    rw [Nat.pow_succ]
    omega

/-- The state a run of the merger keeps: `2^H` leaves, enough for the sources, and a tree
whose winner is decided by the lists `ls` still to be handed out. -/
structure Ready (D : Bytes → Prop) (cmp : Bytes → Bytes → Ordering) (H : Nat)
    (m : LoserTreeMerger S) (ls : List (List Entry)) : Prop where
  yields : List.Forall₂ Yields m.sources ls
  keys : KeysIn D ls
  padded : m.kPadded = 2^H
  room : ls.length ≤ 2^H
  size : m.tree.length = 2^H
  plays : Plays (2^H) m.tree (frontLt cmp ls) H 1 m.winner

theorem new_mirrors (hC : OrdersAs C D cmp) (sources : List S) {ls : List (List Entry)}
    (hy : List.Forall₂ Yields sources ls)
    (hs : (bracketOf ls).Safe (entryLt cmp) (fun e => D e.1)) {H : Nat}
    (hH : H = Nat.clog 2 (max sources.length 1)) :
    ∃ w tree, LoserTreeMerger.new C sources = .ok ⟨sources,tree,w,2^H⟩ ∧
      tree.length = 2^H ∧ Mirrors (entryLt cmp) (2^H) tree ls H 1 w (bracketOf ls) := by
  subst hH
  rw [hy.length_eq,bracketOf] at *
  let H := Nat.clog 2 (max ls.length 1)
  let m₀ : LoserTreeMerger S := ⟨sources,List.replicate (2^H) noneYet,0,2^H⟩
  obtain ⟨w,tree,hb,hp,hl,-⟩ := buildSubtree_mirrors hC H (2^H+1) m₀ 1 hy (by simp [m₀])
    (spans_root H) (by have := Nat.lt_two_pow_self (n:=H); omega) hs
  refine ⟨w,tree,?_,by simpa [m₀] using hl,hp⟩
  have hb' : LoserTreeMerger.buildSubtree C (m₀.kPadded+1) m₀ 1 = _ := hb
  rw [LoserTreeMerger.new,hy.length_eq]
  show LoserTreeMerger.build C m₀ = _
  simp only [LoserTreeMerger.build,hb',ok_bind,pure_eq_ok,m₀]
  rfl

theorem new_ready (hC : OrdersAs C D cmp) (sources : List S) {ls : List (List Entry)}
    (hy : List.Forall₂ Yields sources ls) (hD : KeysIn D ls) :
    ∃ m, LoserTreeMerger.new C sources = .ok m ∧
      Ready D cmp (Nat.clog 2 (max sources.length 1)) m ls := by
  obtain ⟨w,tree,hnew,hl,hm⟩ := new_mirrors hC sources hy (safeRun_bracketOf hD 0) rfl
  refine ⟨_,hnew,hy,hD,rfl,?_,hl,?_⟩
  · rw [hy.length_eq]
    exact length_le_padded _
  · rw [frontLt_eq]
    exact hm.plays (frontLt_eq cmp ls ▸ frontLt_isWeak hC hD)

theorem Ready.min {H : Nat} {m : LoserTreeMerger S} {ls : List (List Entry)}
    (hC : OrdersAs C D cmp) (h : Ready D cmp H m ls) {i : Nat} (hi : i < 2^H) :
    frontLt cmp ls i m.winner = false := by
  apply plays_min (frontLt_isWeak hC h.keys) h.plays
  rw [Nat.div_eq_iff (Nat.two_pow_pos H)]
  omega

theorem Ready.winner_lt {H : Nat} {m : LoserTreeMerger S} {ls : List (List Entry)}
    (h : Ready D cmp H m ls) : (2^H+m.winner)/2^H = 1 ∧ m.winner < 2^H := by
  have hl := plays_leaf h.plays
  refine ⟨hl,?_⟩
  have hm := Nat.lt_mul_div_succ (2^H+m.winner) (Nat.two_pow_pos H)
  rw [hl] at hm
  omega

theorem Ready.exhausted {H : Nat} {m : LoserTreeMerger S} {ls : List (List Entry)}
    (hC : OrdersAs C D cmp) (h : Ready D cmp H m ls) (hw : front ls m.winner = none) :
    ∀ l ∈ ls, l = [] := by
  intro l hl
  obtain ⟨i,hi,rfl⟩ := List.getElem_of_mem hl
  have hmin := h.min hC (i:=i) (by have := h.room; omega)
  cases hli : ls[i] with
  | nil => rfl
  | cons e es =>
    have hf : front ls i = some e.1 := by simp [front,List.getElem?_eq_getElem hi,hli]
    simp [frontLt,hf,hw] at hmin

theorem Ready.smallest {H : Nat} {m : LoserTreeMerger S} {ls : List (List Entry)}
    (hC : OrdersAs C D cmp) (h : Ready D cmp H m ls) {e : Entry} {rest : List Entry}
    (hw : ls[m.winner]? = some (e :: rest)) :
    ∀ x xs, x :: xs ∈ ls → cmp e.1 x.1 ≠ .gt := by
  intro x xs hx
  obtain ⟨i,hi,hli⟩ := List.getElem_of_mem hx
  have hmin := h.min hC (i:=i) (by have := h.room; omega)
  have hfw : front ls m.winner = some e.1 := by simp [front,hw]
  have hfi : front ls i = some x.1 := by simp [front,List.getElem?_eq_getElem hi,hli]
  simp only [frontLt,hfw,hfi,beq_eq_false_iff_ne] at hmin
  intro hg
  rw [hC.swap e.1 x.1 (h.keys.front hfw) (h.keys.front hfi),hg] at hmin
  exact hmin rfl

theorem front_set_ne {ls : List (List Entry)} {i w : Nat} {rest : List Entry} (hi : i ≠ w) :
    front (ls.set w rest) i = front ls i := by
  simp only [front,List.getElem?_set_ne (Ne.symm hi)]

theorem forall₂_set {sources : List S} {ls : List (List Entry)} {i : Nat} {s : S}
    {es : List Entry} (hy : List.Forall₂ Yields sources ls) (hs : Yields s es) :
    List.Forall₂ Yields (sources.set i s) (ls.set i es) := by
  induction hy generalizing i with
  | nil => exact .nil
  | cons ha hrest ih =>
    cases i with
    | zero => exact .cons hs hrest
    | succ i => exact .cons ha ih

theorem Ready.advance {H : Nat} {m : LoserTreeMerger S} {ls : List (List Entry)}
    (hC : OrdersAs C D cmp) (h : Ready D cmp H m ls) {s : S} {e : Entry} {rest : List Entry}
    (hys : Yields s (e :: rest)) (hw : ls[m.winner]? = some (e :: rest)) :
    ∃ m', LoserTreeMerger.replayFromLeaf C
        { m with sources := m.sources.set m.winner (MergeSource.advance s) } m.winner = .ok m' ∧
      Ready D cmp H m' (ls.set m.winner rest) := by
  obtain ⟨hleaf,hlt⟩ := h.winner_lt
  have hy' := forall₂_set (i:=m.winner) h.yields hys.advance
  have hD' := h.keys.set hw
  have hweak := frontLt_isWeak hC hD'
  have hagree : ∀ i j, i ≠ m.winner → j ≠ m.winner →
      frontLt cmp (ls.set m.winner rest) i j = frontLt cmp ls i j := by
    intro i j hi hj
    simp only [frontLt,front_set_ne hi,front_set_ne hj]
  refine ⟨_,replayFromLeaf_climb hC
    { m with sources := m.sources.set m.winner (MergeSource.advance s) } hy' h.padded h.size
    hleaf (fun i _ l x y _ hx hy => ⟨hD'.head hx,hD'.head hy⟩),hy',hD',h.padded,?_,?_,
    climb_plays hweak (by decide) h.plays hagree⟩
  · rw [List.length_set]
    exact h.room
  · rw [climb_length]
    exact h.size

theorem run_stop {m : LoserTreeMerger S} {ls : List (List Entry)}
    (hy : List.Forall₂ Yields m.sources ls) (hw : headOf ls m.winner = none) (fuel : Nat) :
    LoserTreeMerger.run C (fuel+1) m = .ok ([],m) := by
  by_cases hlen : m.winner ≥ m.sources.length
  · simp [LoserTreeMerger.run,hlen]
  · have hi : m.winner < m.sources.length := by omega
    have hj : m.winner < ls.length := by have := hy.length_eq; omega
    have hys := hy.get hi hj
    have hhead : ls[m.winner].head? = none := by
      simpa [headOf,List.getElem?_eq_getElem hj] using hw
    simp only [List.get_eq_getElem] at hys
    simp [LoserTreeMerger.run,hlen,index_of_getElem? (List.getElem?_eq_getElem hi),hys.peek,hhead]

theorem run_step {m : LoserTreeMerger S} {ls : List (List Entry)}
    (hy : List.Forall₂ Yields m.sources ls) {e : Entry} {rest : List Entry}
    (hw : ls[m.winner]? = some (e :: rest)) : ∃ s, Yields s (e :: rest) ∧
      ∀ fuel, LoserTreeMerger.run C (fuel+1) m = (do
        let m ← LoserTreeMerger.replayFromLeaf C
          { m with sources := m.sources.set m.winner (MergeSource.advance s) } m.winner
        let (rest,m) ← LoserTreeMerger.run C fuel m
        pure (e :: rest,m)) := by
  obtain ⟨hj,hje⟩ := List.getElem?_eq_some_iff.mp hw
  have hi : m.winner < m.sources.length := by have := hy.length_eq; omega
  have hys := hy.get hi hj
  simp only [List.get_eq_getElem,hje] at hys
  have hlen : ¬ m.winner ≥ m.sources.length := by omega
  refine ⟨m.sources[m.winner],hys,fun fuel => ?_⟩
  simp only [LoserTreeMerger.run,hlen,↓reduceIte,index_of_getElem? (List.getElem?_eq_getElem hi),
    ok_bind,hys.peek,List.head?_cons]

/-- `run` drains the lists: one step of the loop is one `pop`, and the induction is on the
number of entries left. -/
theorem Ready.run {H : Nat} (hC : OrdersAs C D cmp) (total : Nat) {m : LoserTreeMerger S}
    {ls : List (List Entry)} (h : Ready D cmp H m ls) (ht : ls.flatten.length = total) :
    ∃ out m', (∀ fuel, total < fuel →
        LoserTreeMerger.run C fuel m = .ok (out.map Prod.snd,m')) ∧
      Drains (fun a b => cmp a.1 b.1 ≠ .gt) ls out ∧
      List.Forall₂ Yields m'.sources (ls.map (fun _ => [])) := by
  induction total generalizing m ls with
  | zero =>
    have hnil : ∀ l ∈ ls, l = [] :=
      List.flatten_eq_nil_iff.mp (List.length_eq_zero_iff.mp ht)
    have hw : front ls m.winner = none := by
      cases hf : front ls m.winner with
      | none => rfl
      | some k =>
        obtain ⟨e,es,hl,-⟩ := front_mem hf
        simpa using hnil _ (List.mem_of_getElem? hl)
    have hmap : ls.map (fun _ => []) = ls := by
      conv_rhs => rw [← List.map_id ls]
      exact List.map_congr_left (fun l hl => (hnil l hl).symm)
    refine ⟨[],m,?_,.done hnil,by rw [hmap]; exact h.yields⟩
    intro fuel hf
    obtain ⟨fuel,rfl⟩ := Nat.exists_eq_succ_of_ne_zero (show fuel ≠ 0 by omega)
    exact run_stop h.yields (Option.map_eq_none_iff.mp hw) fuel
  | succ total ih =>
    cases hf : front ls m.winner with
    | none =>
      rw [flatten_of_empty (h.exhausted hC hf)] at ht
      simp at ht
    | some k =>
      obtain ⟨e,rest,hw,-⟩ := front_mem hf
      obtain ⟨s,hys,hstep⟩ := run_step (C:=C) h.yields hw
      obtain ⟨m₁,hrep,hready⟩ := h.advance hC hys hw
      have hcount : (ls.set m.winner rest).flatten.length = total := by
        have hp := (flatten_pop hw).length_eq
        simp only [List.length_cons] at hp
        omega
      obtain ⟨out,m',hrun,hdr,hfin⟩ := ih hready hcount
      refine ⟨(m.winner,e) :: out,m',?_,.pop hw (h.smallest hC hw) hdr,?_⟩
      · intro fuel hfuel
        obtain ⟨fuel,rfl⟩ := Nat.exists_eq_succ_of_ne_zero (show fuel ≠ 0 by omega)
        rw [hstep,hrep,ok_bind,hrun fuel (by omega)]
        rfl
      · have hmap : (ls.set m.winner rest).map (fun _ => ([] : List Entry)) =
            ls.map (fun _ => []) := by
          simp [List.map_const']
        rw [← hmap]
        exact hfin

/-- A merge of sorted sources: every entry is handed to `f` exactly once, in sorted order
and each source's in its own order, and no source has anything left. -/
theorem loserTree_merges (hC : OrdersAs C D cmp) (sources : List S) (ls : List (List Entry))
    (hy : List.Forall₂ Yields sources ls) (hD : ∀ l ∈ ls, ∀ e ∈ l, D e.1)
    (hs : ∀ l ∈ ls, l.Pairwise (fun a b => cmp a.1 b.1 ≠ .gt)) :
    ∃ m out m', LoserTreeMerger.new C sources = .ok m ∧
      (∀ fuel, ls.flatten.length < fuel →
        LoserTreeMerger.run C fuel m = .ok (out.map Prod.snd,m')) ∧
      out.length = ls.flatten.length ∧
      (out.map Prod.snd).Pairwise (fun a b => cmp a.1 b.1 ≠ .gt) ∧
      (out.map Prod.snd).Perm ls.flatten ∧
      (∀ i, lane i out = (ls[i]?).getD []) ∧
      ∀ s ∈ m'.sources, Yields s [] := by
  obtain ⟨m,hnew,hready⟩ := new_ready hC sources hy hD
  obtain ⟨out,m',hrun,hdr,hfin⟩ := hready.run hC ls.flatten.length rfl
  have htrans : ∀ a b c : Entry, a ∈ ls.flatten → b ∈ ls.flatten → c ∈ ls.flatten →
      cmp a.1 b.1 ≠ .gt → cmp b.1 c.1 ≠ .gt → cmp a.1 c.1 ≠ .gt := by
    have hmem : ∀ x : Entry, x ∈ ls.flatten → D x.1 := by
      intro x hx
      obtain ⟨l,hl,hxl⟩ := List.mem_flatten.mp hx
      exact hD l hl x hxl
    exact fun a b c ha hb hc => hC.trans a.1 b.1 c.1 (hmem a ha) (hmem b hb) (hmem c hc)
  refine ⟨m,out,m',hnew,hrun,?_,hdr.sorted htrans hs,hdr.perm,hdr.lane,?_⟩
  · simpa using hdr.perm.length_eq
  · intro s hsm
    obtain ⟨i,hi,rfl⟩ := List.getElem_of_mem hsm
    have hl : i < (ls.map (fun _ => ([] : List Entry))).length := by
      have := hfin.length_eq; omega
    have := hfin.get hi hl
    simpa using this

end

def threeSources : List (List Entry) :=
  [[([7] ++ FixedWidth.leBytes 8 0x301,[1]),([7] ++ FixedWidth.leBytes 8 0x101,[2])],[],
    [([7] ++ FixedWidth.leBytes 8 0x201,[3])]]

theorem loserTree_merges_three :
    ∃ m out m',
      LoserTreeMerger.new internalKeyComparator (threeSources.map VecSource.new) = .ok m ∧
      (∀ fuel, threeSources.flatten.length < fuel →
        LoserTreeMerger.run internalKeyComparator fuel m = .ok (out.map Prod.snd,m')) ∧
      out.length = threeSources.flatten.length ∧
      (out.map Prod.snd).Pairwise (fun a b => compareKeys a.1 b.1 ≠ .gt) ∧
      (out.map Prod.snd).Perm threeSources.flatten ∧
      (∀ i, lane i out = (threeSources[i]?).getD []) ∧
      ∀ s ∈ m'.sources, Yields s [] :=
  loserTree_merges internalKeyComparator_orders _ _ (vecSources_yield threeSources) (by decide)
    (by decide)

end SstCompactor
