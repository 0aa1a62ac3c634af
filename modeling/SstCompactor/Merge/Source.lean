import SstCompactor.Merge.Cmp

/-!
Merge inputs. A source is known to a merge only through `peek` and `advance`; `Yields`
says which entries it will hand out. `ArenaSource` reads its entries through `u32` spans
into one buffer.
-/

set_option autoImplicit false

namespace SstCompactor

class MergeSource (S : Type) where
  peek : S → Exec (Option Entry)
  advance : S → S

inductive Yields {S : Type} [MergeSource S] : S → List Entry → Prop where
  | nil {s : S} : MergeSource.peek s = .ok none → Yields s []
  | cons {s : S} {e : Entry} {es : List Entry} : MergeSource.peek s = .ok (some e) →
      Yields (MergeSource.advance s) es → Yields s (e :: es)

theorem Yields.unique {S : Type} [MergeSource S] {s : S} {xs ys : List Entry}
    (hx : Yields s xs) (hy : Yields s ys) : xs = ys := by
  induction hx generalizing ys with
  | nil hp =>
    cases hy with
    | nil _ => rfl
    | cons hq _ => simp [hp] at hq
  | cons hp _ ih =>
    cases hy with
    | nil hq => simp [hp] at hq
    | cons hq ht =>
      rw [hp] at hq
      simp only [Except.ok.injEq,Option.some.injEq] at hq
      rw [hq,ih ht]

theorem Yields.peek {S : Type} [MergeSource S] {s : S} {es : List Entry} (h : Yields s es) :
    MergeSource.peek s = .ok es.head? := by
  cases h with
  | nil hp => exact hp
  | cons hp _ => exact hp

theorem Yields.advance {S : Type} [MergeSource S] {s : S} {e : Entry} {es : List Entry}
    (h : Yields s (e :: es)) : Yields (MergeSource.advance s) es := by
  cases h with
  | cons _ ht => exact ht

structure VecSource where
  entries : List Entry
  pos : Nat

def VecSource.new (entries : List Entry) : VecSource := ⟨entries,0⟩

instance : MergeSource VecSource where
  peek s := .ok s.entries[s.pos]?
  advance s := { s with pos := s.pos+1 }

theorem VecSource.yields (s : VecSource) : Yields s (s.entries.drop s.pos) := by
  generalize hd : s.entries.drop s.pos = es
  induction es generalizing s with
  | nil =>
    have hl := List.drop_eq_nil_iff.mp hd
    exact .nil (by simp [MergeSource.peek,hl])
  | cons e es ih =>
    have hg : s.entries[s.pos]? = some e := by
      have h0 := congrArg List.head? hd
      simpa [List.head?_drop] using h0
    refine .cons (by simp [MergeSource.peek,hg]) (ih _ ?_)
    have ht := congrArg List.tail hd
    simpa [MergeSource.advance,List.tail_drop] using ht

theorem vecSources_yield (ls : List (List Entry)) :
    List.Forall₂ Yields (ls.map VecSource.new) ls := by
  induction ls with
  | nil => exact .nil
  | cons l ls ih => exact .cons (VecSource.new l).yields ih

structure EntrySpan where
  keyOff : UInt32
  keyLen : UInt32
  valOff : UInt32
  valLen : UInt32
  deriving DecidableEq, Repr

/-- `end` is the source's name for `stop`. The two `Arc`s are plain values here. -/
structure ArenaSource where
  arena : Bytes
  spans : List EntrySpan
  pos : Nat
  stop : Nat
  deriving DecidableEq, Repr

namespace ArenaSource

/-- The sum of offset and length is taken in `u32`. -/
def span (arena : Bytes) (off len : UInt32) : Exec Bytes := do
  let stop ← checkedAdd 32 off.toNat len.toNat
  slice arena off.toNat stop

def key (s : ArenaSource) (p : EntrySpan) : Exec Bytes := span s.arena p.keyOff p.keyLen

def val (s : ArenaSource) (p : EntrySpan) : Exec Bytes := span s.arena p.valOff p.valLen

def len (s : ArenaSource) : Nat := s.stop-min s.pos s.stop

def shard (s : ArenaSource) (start endIdx : Nat) : Exec ArenaSource := do
  require (start ≤ endIdx ∧ endIdx ≤ s.spans.length)
  pure ⟨s.arena,s.spans,start,endIdx⟩

def totalLen (s : ArenaSource) : Nat := s.spans.length

def keyAt (s : ArenaSource) (i : Nat) : Exec Bytes := do
  let p ← index s.spans i
  s.key p

/-- The loop of `slice::binary_search_by`, which halves a window of `size` elements from `base`
on without looking for an early end. -/
def bisect {α : Type} (p : α → Exec Bool) (xs : List α) : Nat → Nat → Nat → Exec Nat
  | 0, size, base => if size ≤ 1 then pure base else .error .outOfFuel
  | fuel+1, size, base => do
      if size ≤ 1 then pure base
      else
        let half := size/2
        let mid := base+half
        let x ← index xs mid
        let below ← p x
        bisect p xs fuel (size-half) (if below then mid else base)

/-- `slice::partition_point`, as the standard library computes it, also where the predicate does
not partition the slice. -/
def partitionPoint {α : Type} (p : α → Exec Bool) (xs : List α) : Exec Nat := do
  if xs.isEmpty then pure 0
  else
    let base ← bisect p xs xs.length xs.length 0
    let x ← index xs base
    let below ← p x
    pure (if below then base+1 else base)

def lowerBound (s : ArenaSource) (boundaryKey : Bytes) : Exec Nat :=
  partitionPoint (fun p => do
    let k ← s.key p
    let o ← compareUserKeys k boundaryKey
    pure (o == .lt)) s.spans

end ArenaSource

def ArenaSource.entry (arena : Bytes) (p : EntrySpan) : Exec Entry := do
  let k ← ArenaSource.span arena p.keyOff p.keyLen
  let v ← ArenaSource.span arena p.valOff p.valLen
  pure (k,v)

instance : MergeSource ArenaSource where
  peek s :=
    if s.pos ≥ s.stop then .ok none
    else
      match s.spans[s.pos]? with
      | none => .ok none
      | some p => do
          let k ← s.key p
          let v ← s.val p
          pure (some (k,v))
  advance s := { s with pos := s.pos+1 }

structure ArenaSourceBuilder where
  arena : Bytes
  spans : List EntrySpan
  deriving Repr

namespace ArenaSourceBuilder

def new : ArenaSourceBuilder := ⟨[],[]⟩

def push (b : ArenaSourceBuilder) (e : Entry) : ArenaSourceBuilder :=
  let keyOff := UInt32.ofNat b.arena.length
  let keyLen := UInt32.ofNat e.1.length
  let valOff := UInt32.ofNat (b.arena ++ e.1).length
  let valLen := UInt32.ofNat e.2.length
  ⟨b.arena ++ e.1 ++ e.2,b.spans ++ [⟨keyOff,keyLen,valOff,valLen⟩]⟩

def build (b : ArenaSourceBuilder) : ArenaSource := ⟨b.arena,b.spans,0,b.spans.length⟩

end ArenaSourceBuilder

/-- A fresh builder, one `push` an entry, then `build`. -/
def ArenaSource.ofEntries (es : List Entry) : ArenaSource :=
  (es.foldl ArenaSourceBuilder.push ArenaSourceBuilder.new).build

def Reads (arena : Bytes) (spans : List EntrySpan) (es : List Entry) : Prop :=
  spans.map (ArenaSource.entry arena) = es.map .ok

theorem Reads.length {arena : Bytes} {spans : List EntrySpan} {es : List Entry}
    (h : Reads arena spans es) : spans.length = es.length := by
  simpa using congrArg List.length h

theorem Reads.get {arena : Bytes} {spans : List EntrySpan} {es : List Entry}
    (h : Reads arena spans es) (i : Nat) (hi : i < es.length) :
    ∃ p, spans[i]? = some p ∧ ArenaSource.entry arena p = .ok es[i] := by
  have hg := congrArg (·[i]?) h
  simp only [List.getElem?_map,List.getElem?_eq_getElem hi,Option.map_some,
    Option.map_eq_some_iff] at hg
  exact hg

theorem entry_eq_ok {arena : Bytes} {p : EntrySpan} {e : Entry}
    (h : ArenaSource.entry arena p = .ok e) :
    ArenaSource.span arena p.keyOff p.keyLen = .ok e.1 ∧
      ArenaSource.span arena p.valOff p.valLen = .ok e.2 := by
  obtain ⟨k,hk,h⟩ := bind_eq_ok h
  obtain ⟨v,hv,h⟩ := bind_eq_ok h
  simp only [pure_eq_ok,Except.ok.injEq] at h
  subst h
  exact ⟨hk,hv⟩

theorem yields_window {s : ArenaSource} {es : List Entry} (h : Reads s.arena s.spans es)
    (hs : s.stop ≤ es.length) : Yields s ((es.take s.stop).drop s.pos) := by
  generalize hd : (es.take s.stop).drop s.pos = out
  induction out generalizing s with
  | nil =>
    have hp : s.pos ≥ s.stop := by
      have hl := congrArg List.length hd
      simp only [List.length_drop,List.length_take,List.length_nil] at hl
      omega
    exact .nil (by simp [MergeSource.peek,hp])
  | cons e out ih =>
    have hp : s.pos < s.stop := by
      have hl := congrArg List.length hd
      simp only [List.length_drop,List.length_take,List.length_cons] at hl
      omega
    have hge : es[s.pos]? = some e := by
      have h0 := congrArg List.head? hd
      rw [List.head?_drop,List.getElem?_take_of_lt hp] at h0
      simpa using h0
    obtain ⟨hlt,he⟩ := List.getElem?_eq_some_iff.mp hge
    obtain ⟨p,hsp,hen⟩ := h.get s.pos hlt
    obtain ⟨hk,hv⟩ := entry_eq_ok hen
    rw [he] at hk hv
    refine .cons ?_ (ih (s:={ s with pos := s.pos+1 }) h hs ?_)
    · have hnp : ¬ s.pos ≥ s.stop := by omega
      simp [MergeSource.peek,hnp,hsp,ArenaSource.key,ArenaSource.val,hk,hv]
    · have ht := congrArg List.tail hd
      simpa [List.tail_drop] using ht

structure ArenaSource.Fresh (s : ArenaSource) : Prop where
  pos_eq : s.pos = 0
  stop_eq : s.stop = s.spans.length

theorem ArenaSource.Fresh.yields {s : ArenaSource} (hf : s.Fresh) {es : List Entry}
    (h : Reads s.arena s.spans es) : Yields s es := by
  have hw := yields_window h (by rw [hf.stop_eq,h.length])
  rw [hf.pos_eq,hf.stop_eq,h.length] at hw
  simpa using hw

theorem reads_of_yields_from {s : ArenaSource} {es : List Entry}
    (hs : s.stop = s.spans.length) (h : Yields s es) :
    Reads s.arena (s.spans.drop s.pos) es := by
  generalize hd : s.spans.drop s.pos = rest
  induction rest generalizing s es with
  | nil =>
    have hl := List.drop_eq_nil_iff.mp hd
    have hp : MergeSource.peek s = .ok none := by
      have hge : s.pos ≥ s.stop := by omega
      simp [MergeSource.peek,hge]
    have he := h.peek
    rw [hp] at he
    cases es with
    | nil => rfl
    | cons e es => simp at he
  | cons p rest ih =>
    have hg : s.spans[s.pos]? = some p := by
      have h0 := congrArg List.head? hd
      simpa [List.head?_drop] using h0
    have hlt : ¬ s.pos ≥ s.stop := by
      have hl := (List.getElem?_eq_some_iff.mp hg).1
      omega
    have hp : MergeSource.peek s = (do
        let k ← s.key p
        let v ← s.val p
        pure (some (k,v))) := by
      simp [MergeSource.peek,hlt,hg]
    have he := h.peek
    rw [hp] at he
    obtain ⟨k,hk,he⟩ := bind_eq_ok he
    obtain ⟨v,hv,he⟩ := bind_eq_ok he
    cases es with
    | nil => simp at he
    | cons e es =>
      simp only [pure_eq_ok,Except.ok.injEq,List.head?_cons,Option.some.injEq] at he
      subst he
      have ht := ih (s:={ s with pos := s.pos+1 }) hs h.advance (by
        have ht := congrArg List.tail hd
        simpa [List.tail_drop] using ht)
      have hen : ArenaSource.entry s.arena p = .ok (k,v) := by
        simp only [ArenaSource.key,ArenaSource.val] at hk hv
        simp [ArenaSource.entry,hk,hv]
      simp only [Reads,List.map_cons,hen] at ht ⊢
      rw [ht]

theorem ArenaSource.Fresh.reads {s : ArenaSource} (hf : s.Fresh) {es : List Entry}
    (h : Yields s es) : Reads s.arena s.spans es := by
  have hr := reads_of_yields_from hf.stop_eq h
  rwa [hf.pos_eq,List.drop_zero] at hr

theorem span_length {arena bs : Bytes} {off len : UInt32}
    (h : ArenaSource.span arena off len = .ok bs) : bs.length = len.toNat := by
  obtain ⟨stop,hs,h⟩ := bind_eq_ok h
  have hstop : stop = off.toNat+len.toNat := by
    unfold checkedAdd at hs
    split at hs
    · simpa using hs.symm
    · simp at hs
  subst hstop
  unfold slice getRange at h
  by_cases hc : off.toNat ≤ off.toNat+len.toNat ∧ off.toNat+len.toNat ≤ arena.length
  · rw [if_pos hc] at h
    simp only [Except.ok.injEq] at h
    rw [← h,List.length_take,List.length_drop]
    omega
  · rw [if_neg hc] at h
    simp at h

theorem Yields.lengths {s : ArenaSource} {es : List Entry} (h : Yields s es) :
    ∀ e ∈ es, e.1.length < 2^32 ∧ e.2.length < 2^32 := by
  induction h with
  | nil _ => simp
  | @cons s e es hp _ ih =>
    intro x hx
    rcases List.mem_cons.mp hx with rfl | hx
    · simp only [MergeSource.peek] at hp
      split at hp
      · simp at hp
      · split at hp
        · simp at hp
        · rename_i p _
          obtain ⟨k,hk,hp⟩ := bind_eq_ok hp
          obtain ⟨v,hv,hp⟩ := bind_eq_ok hp
          simp only [pure_eq_ok,Except.ok.injEq,Option.some.injEq] at hp
          subst hp
          have hkl := span_length hk
          have hvl := span_length hv
          have := p.keyLen.toNat_lt
          have := p.valLen.toNat_lt
          exact ⟨by simp only; omega,by simp only; omega⟩
    · exact ih x hx

theorem span_at (pre mid post : Bytes) (h : (pre ++ mid).length < 2^32) :
    ArenaSource.span (pre ++ mid ++ post) (UInt32.ofNat pre.length) (UInt32.ofNat mid.length) =
      .ok mid := by
  rw [List.length_append] at h
  have hp : (UInt32.ofNat pre.length).toNat = pre.length :=
    UInt32.toNat_ofNat_of_lt' (by show pre.length < 2^32; omega)
  have hm : (UInt32.ofNat mid.length).toNat = mid.length :=
    UInt32.toNat_ofNat_of_lt' (by show mid.length < 2^32; omega)
  simp only [ArenaSource.span,checkedAdd,hp,hm,h,↓reduceIte,ok_bind]
  exact slice_append pre mid post rfl

theorem span_extend {arena bs : Bytes} {off len : UInt32} (more : Bytes)
    (h : ArenaSource.span arena off len = .ok bs) :
    ArenaSource.span (arena ++ more) off len = .ok bs := by
  obtain ⟨stop,hs,h⟩ := bind_eq_ok h
  simp only [ArenaSource.span,hs,ok_bind]
  unfold slice getRange at h ⊢
  by_cases hc : off.toNat ≤ stop ∧ stop ≤ arena.length
  · have hc' : off.toNat ≤ stop ∧ stop ≤ (arena ++ more).length := by
      rw [List.length_append]; omega
    rw [if_pos hc] at h
    rw [if_pos hc',← h]
    simp only
    rw [List.drop_append_of_le_length (by omega),
      List.take_append_of_le_length (by rw [List.length_drop]; omega)]
  · rw [if_neg hc] at h
    simp at h

theorem Reads.extend {arena : Bytes} {spans : List EntrySpan} {es : List Entry}
    (h : Reads arena spans es) (more : Bytes) : Reads (arena ++ more) spans es := by
  refine List.ext_getElem? (fun i => ?_)
  by_cases hi : i < es.length
  · obtain ⟨p,hp,he⟩ := h.get i hi
    obtain ⟨hk,hv⟩ := entry_eq_ok he
    simp [List.getElem?_map,hp,List.getElem?_eq_getElem hi,ArenaSource.entry,
      span_extend more hk,span_extend more hv]
  · have hl := h.length
    rw [List.getElem?_eq_none (by simp; omega),List.getElem?_eq_none (by simp; omega)]

theorem push_reads {b : ArenaSourceBuilder} {done : List Entry} (e : Entry)
    (h : Reads b.arena b.spans done)
    (hc : b.arena.length+e.1.length+e.2.length < 2^32) :
    Reads (b.push e).arena (b.push e).spans (done ++ [e]) := by
  have hk : ArenaSource.span (b.arena ++ e.1 ++ e.2) (UInt32.ofNat b.arena.length)
      (UInt32.ofNat e.1.length) = .ok e.1 :=
    span_at b.arena e.1 e.2 (by rw [List.length_append]; omega)
  have hv : ArenaSource.span (b.arena ++ e.1 ++ e.2) (UInt32.ofNat (b.arena ++ e.1).length)
      (UInt32.ofNat e.2.length) = .ok e.2 := by
    have hs := span_at (b.arena ++ e.1) e.2 [] (by simp only [List.length_append]; omega)
    simpa using hs
  have hold := (h.extend e.1).extend e.2
  simp only [Reads,ArenaSourceBuilder.push,List.map_append,List.map_cons,List.map_nil] at hold ⊢
  rw [hold]
  simp only [ArenaSource.entry,hk,hv,ok_bind,pure_eq_ok]

theorem foldl_push_reads (b : ArenaSourceBuilder) (done es : List Entry)
    (h : Reads b.arena b.spans done) (hc : b.arena.length+totalBytes es < 2^32) :
    Reads (es.foldl ArenaSourceBuilder.push b).arena (es.foldl ArenaSourceBuilder.push b).spans
      (done ++ es) := by
  induction es generalizing b done with
  | nil => simpa using h
  | cons e es ih =>
    have hb : totalBytes (e :: es) = e.1.length+e.2.length+totalBytes es := by simp [totalBytes]
    have hp := push_reads e h (by omega)
    have hr := ih _ _ hp (by
      simp only [ArenaSourceBuilder.push,List.length_append]
      omega)
    simpa using hr

theorem ofEntries_fresh (es : List Entry) : (ArenaSource.ofEntries es).Fresh := ⟨rfl,rfl⟩

/-- Within the 4 GiB an arena can address, a source represents what was pushed. -/
theorem ofEntries_yields {es : List Entry} (h : totalBytes es < 2^32) :
    Yields (ArenaSource.ofEntries es) es := by
  apply (ofEntries_fresh es).yields
  have hr := foldl_push_reads ArenaSourceBuilder.new [] es rfl
    (by simpa [ArenaSourceBuilder.new] using h)
  simpa [ArenaSource.ofEntries,ArenaSourceBuilder.build] using hr

def spansFrom : Nat → List Entry → List EntrySpan
  | _, [] => []
  | off, e :: es =>
    ⟨UInt32.ofNat off,UInt32.ofNat e.1.length,UInt32.ofNat (off+e.1.length),
      UInt32.ofNat e.2.length⟩ :: spansFrom (off+e.1.length+e.2.length) es

theorem foldl_push_spans (b : ArenaSourceBuilder) (es : List Entry) :
    (es.foldl ArenaSourceBuilder.push b).spans = b.spans ++ spansFrom b.arena.length es := by
  induction es generalizing b with
  | nil => simp [spansFrom]
  | cons e es ih =>
    rw [List.foldl_cons,ih]
    simp [ArenaSourceBuilder.push,spansFrom,Nat.add_assoc]

theorem ofEntries_spans (es : List Entry) : (ArenaSource.ofEntries es).spans = spansFrom 0 es := by
  have hs := foldl_push_spans ArenaSourceBuilder.new es
  simpa [ArenaSource.ofEntries,ArenaSourceBuilder.build,ArenaSourceBuilder.new] using hs

theorem span_fits {arena bs : Bytes} {off : Nat} (ho : off < 2^32)
    (h : ArenaSource.span arena (UInt32.ofNat off) (UInt32.ofNat bs.length) = .ok bs) :
    off+bs.length < 2^32 := by
  have hl := span_length h
  have hlt := (UInt32.ofNat bs.length).toNat_lt
  have hn : (UInt32.ofNat bs.length).toNat = bs.length := hl.symm
  obtain ⟨stop,hs,-⟩ := bind_eq_ok h
  rw [toNat_ofNat32 ho,hn] at hs
  unfold checkedAdd at hs
  split at hs
  · assumption
  · simp at hs

theorem reads_spansFrom {arena : Bytes} (es : List Entry) (off : Nat) (ho : off < 2^32)
    (h : Reads arena (spansFrom off es) es) : off+totalBytes es < 2^32 := by
  induction es generalizing off with
  | nil => simpa [totalBytes] using ho
  | cons e es ih =>
    simp only [Reads,spansFrom,List.map_cons,List.cons.injEq] at h
    obtain ⟨he,hr⟩ := h
    obtain ⟨hk,hv⟩ := entry_eq_ok he
    have hk' := span_fits ho hk
    have hv' := span_fits hk' hv
    have ht := ih (off+e.1.length+e.2.length) hv' hr
    have hb : totalBytes (e :: es) = e.1.length+e.2.length+totalBytes es := by simp [totalBytes]
    omega

theorem totalBytes_of_yields {es : List Entry} (h : Yields (ArenaSource.ofEntries es) es) :
    totalBytes es < 2^32 := by
  have hr := (ofEntries_fresh es).reads h
  rw [ofEntries_spans] at hr
  simpa using reads_spansFrom es 0 (by decide) hr

def ArenaSource.shards (s : ArenaSource) : Nat → List Nat → Exec (List ArenaSource)
  | _, [] => .ok []
  | start, c :: cuts => do
      let part ← s.shard start c
      let parts ← s.shards c cuts
      pure (part :: parts)

theorem shards_yield {s : ArenaSource} {es : List Entry} (h : Reads s.arena s.spans es)
    (start : Nat) (cuts : List Nat) (hc : (start :: cuts).Pairwise (· ≤ ·))
    (hl : (start :: cuts).getLast? = some s.totalLen) :
    ∃ parts streams, s.shards start cuts = .ok parts ∧ List.Forall₂ Yields parts streams ∧
      streams.flatten = es.drop start := by
  induction cuts generalizing start with
  | nil =>
    refine ⟨[],[],rfl,.nil,?_⟩
    have hs : start = es.length := by
      simpa [ArenaSource.totalLen,h.length] using hl
    simp [hs]
  | cons c cuts ih =>
    have hle : start ≤ c := (List.pairwise_cons.mp hc).1 c (by simp)
    have hl' : (c :: cuts).getLast? = some s.totalLen := by simpa using hl
    have hct : c ≤ es.length := by
      have hm := List.mem_of_getLast? hl'
      rw [ArenaSource.totalLen,h.length] at hm
      rcases List.mem_cons.mp hm with hm | hm
      · omega
      · exact (List.pairwise_cons.mp (List.pairwise_cons.mp hc).2).1 _ hm
    obtain ⟨parts,streams,hp,hy,hf⟩ := ih c (List.pairwise_cons.mp hc).2 hl'
    have hs : s.shard start c = .ok ⟨s.arena,s.spans,start,c⟩ := by
      simp [ArenaSource.shard,require,hle,h.length,hct]
    have hw := yields_window (s:=⟨s.arena,s.spans,start,c⟩) h hct
    refine ⟨_ :: parts,_ :: streams,?_,.cons hw hy,?_⟩
    · simp only [ArenaSource.shards,hs,hp,ok_bind,pure_eq_ok]
    · have hd : es.drop c = (es.drop start).drop (c-start) := by
        rw [List.drop_drop,Nat.add_sub_cancel' hle]
      rw [List.flatten_cons,hf,List.drop_take,hd]
      exact List.take_append_drop (c-start) (es.drop start)

/-- The stream is that of `VecSource`, and shards put together give it back. -/
theorem arenaSource_iff (es : List Entry) :
    (Yields (ArenaSource.ofEntries es) es ∧
      (∀ out, Yields (ArenaSource.ofEntries es) out ↔ Yields (VecSource.new es) out) ∧
      ∀ cuts, (0 :: cuts).Pairwise (· ≤ ·) →
        (0 :: cuts).getLast? = some (ArenaSource.ofEntries es).totalLen →
        ∃ parts streams, (ArenaSource.ofEntries es).shards 0 cuts = .ok parts ∧
          List.Forall₂ Yields parts streams ∧ streams.flatten = es) ↔
      totalBytes es < 2^32 := by
  constructor
  · intro h
    exact totalBytes_of_yields h.1
  · intro h
    have hy := ofEntries_yields h
    have hv : Yields (VecSource.new es) es := (VecSource.new es).yields
    refine ⟨hy,?_,?_⟩
    · intro out
      constructor
      · intro ho
        exact hy.unique ho ▸ hv
      · intro ho
        exact hv.unique ho ▸ hy
    · intro cuts hc hl
      exact shards_yield ((ofEntries_fresh es).reads hy) 0 cuts hc hl

@[irreducible] def hugeEntry : Entry := (List.replicate 8 0,List.replicate (2^32-8) 0)

theorem hugeEntry_totalBytes : totalBytes [hugeEntry] = 2^32 := by
  simp only [totalBytes,hugeEntry,List.map_cons,List.map_nil,List.length_replicate,List.sum_cons,
    List.sum_nil]
  omega

theorem arenaSource_hugeEntry : ¬ Yields (ArenaSource.ofEntries [hugeEntry]) [hugeEntry] := by
  intro h
  have hb := totalBytes_of_yields h
  rw [hugeEntry_totalBytes] at hb
  exact Nat.lt_irrefl _ hb

end SstCompactor
