import SstCompactor.Format.Varsigned

/-!
Index blocks with any restart interval. Within an interval an entry whose key shares bytes
with the one before it has only the difference of the block sizes written down; the reader
adds up the rest.
-/

set_option autoImplicit false

namespace SstCompactor
open FixedWidth

/-- What is promised of a handle: its size is an `i64` and the block behind it has an offset. -/
def BlockHandle.InFile (h : BlockHandle) : Prop :=
  h.size.toNat < 2^63 ∧ h.offset.toNat+h.size.toNat+5 < 2^64

def BlockHandle.Next (prev h : BlockHandle) : Prop :=
  h.offset.toNat = prev.offset.toNat+prev.size.toNat+5

theorem size_toInt {h : BlockHandle} (hf : h.InFile) : h.size.toInt64.toInt = h.size.toNat := by
  apply BitVec.toInt_eq_toNat_of_lt
  have hs := hf.1
  change 2*h.size.toNat < 2^64
  omega

theorem sizeDelta {prev h : BlockHandle} (hp : prev.InFile) (hf : h.InFile) :
    ∃ delta, checkedSubI64 h.size.toInt64 prev.size.toInt64 = .ok delta := by
  have hps := size_toInt hp
  have hfs := size_toInt hf
  have hpl := hp.1
  have hfl := hf.1
  exact ⟨h.size.toInt64-prev.size.toInt64,by rw [checkedSubI64,hps,hfs,if_pos (by omega)]⟩

theorem checkedAddI64_checkedSubI64 {a b delta : Int64} (h : checkedSubI64 a b = .ok delta) :
    checkedAddI64 b delta = .ok a := by
  rw [checkedSubI64] at h
  split at h
  · rename_i hr
    obtain rfl := Except.ok.inj h
    have hd : (a-b).toInt = a.toInt-b.toInt := by
      rw [Int64.toInt_sub]
      exact Int.bmod_eq_of_le (by omega) (by omega)
    have ha := a.le_toInt
    have ha' := a.toInt_lt
    rw [checkedAddI64,hd,if_pos (by omega)]
    congr 1
    grind
  · contradiction

theorem readHandle_delta (pre post : Bytes) {prev h : BlockHandle} (hn : prev.Next h)
    {delta : Int64} (hd : checkedSubI64 h.size.toInt64 prev.size.toInt64 = .ok delta) :
    readHandle (pre ++ putVarsigned64 delta ++ post) false (some prev) pre.length =
      .ok (h,pre.length+(putVarsigned64 delta).length) := by
  have hadd := checkedAddI64_checkedSubI64 hd
  have hb : prev.offset.toNat+prev.size.toNat+5 < 2^64 := by
    rw [← hn]
    exact h.offset.toNat_lt
  have hoff : UInt64.ofNat (prev.offset.toNat+prev.size.toNat+5) = h.offset := by
    rw [← hn]
    exact UInt64.ofNat_toNat
  simp only [readHandle,Bool.false_eq_true,↓reduceIte,okOr,ok_bind,
    getVarsigned64_put delta rfl rfl,hadd,blockTrailerSize]
  rw [checkedAdd_of_lt (by omega),ok_bind,checkedAdd_of_lt hb,ok_bind,hoff]
  rfl

structure IndexBlockBuilder.Sound (b : IndexBlockBuilder) : Prop where
  interval : 1 ≤ b.restartInterval
  last : b.lastKey.length ≤ b.buffer.length
  handle : b.lastKey ≠ [] → ∃ prev, b.lastHandle = some prev
  inFile : ∀ prev, b.lastHandle = some prev → prev.InFile
  /-- But for the first, no restart point is at the end of the buffer, where the next entry
  goes. -/
  marks : b.buffer.length < 2^32 → ∀ x ∈ b.restarts, x.toNat < max 1 b.buffer.length

structure IndexBlockBuilder.Marked (b : IndexBlockBuilder) : Prop where
  last : b.lastKey.length ≤ b.buffer.length
  handle : b.lastKey ≠ [] → ∃ prev, b.lastHandle = some prev
  marks : b.buffer.length < 2^32 → ∀ x ∈ b.restarts, x.toNat < max 1 b.buffer.length

theorem IndexBlockBuilder.Sound.marked {b : IndexBlockBuilder} (h : b.Sound) : b.Marked :=
  ⟨h.last,h.handle,h.marks⟩

/-- Bytes appended to the buffer of `b` for an index entry, and what a reader makes of them
that knows the restart points `R`. -/
structure IndexBlockBuilder.Extends (b b' : IndexBlockBuilder) (e : Bytes × BlockHandle)
    (record : Bytes) : Prop where
  buffer : b'.buffer = b.buffer ++ record
  record_ne : record ≠ []
  lastKey : b'.lastKey = e.1
  lastHandle : b'.lastHandle = some e.2
  restarts : b'.restarts = b.restarts ∨ b'.restarts = b.restarts ++ [UInt32.ofNat b.buffer.length]
  reads : ∀ (post : Bytes) (R : List Nat), (b.buffer ++ record ++ post).length < 2^32 →
    (b'.restarts = b.restarts → b.buffer ≠ [] → b.buffer.length ∉ R) →
    readIndexEntry (b.buffer ++ record ++ post) R (b.lastKey,b.lastHandle) b.buffer.length =
      .ok (e,(e.1,some e.2),b.buffer.length+record.length)

namespace IndexBlockBuilder

theorem indexRecord_ne (e : Bytes × BlockHandle) : indexRecord e ≠ [] := by
  have h := indexRecord_length_pos e
  intro hn
  simp [hn] at h

theorem indexRecord_key_le (e : Bytes × BlockHandle) : e.1.length ≤ (indexRecord e).length := by
  simp only [indexRecord,indexKeyBytes,List.length_append]
  omega

theorem extends_full {b b' : IndexBlockBuilder} {e : Bytes × BlockHandle}
    (hb : b'.buffer = b.buffer ++ indexRecord e) (hk : b'.lastKey = e.1)
    (hh : b'.lastHandle = some e.2) (hr : b'.restarts = b.restarts ∨
      b'.restarts = b.restarts ++ [UInt32.ofNat b.buffer.length]) :
    b.Extends b' e (indexRecord e) where
  buffer := hb
  record_ne := indexRecord_ne e
  lastKey := hk
  lastHandle := hh
  restarts := hr
  reads := by
    intro post R hl _
    have hke := indexRecord_key_le e
    simp only [List.length_append] at hl
    apply readIndexEntry_record
    · omega
    · simp only [List.length_append]
      omega

theorem Extends.marked {b b' : IndexBlockBuilder} (h : b.Marked) {e : Bytes × BlockHandle}
    {record : Bytes} (hx : b.Extends b' e record) (hl : e.1.length ≤ b'.buffer.length) :
    b'.Marked where
  last := by rw [hx.lastKey]; exact hl
  handle := fun _ => ⟨e.2,hx.lastHandle⟩
  marks := by
    intro hlt x hm
    have hpos := List.length_pos_iff.mpr hx.record_ne
    rw [hx.buffer,List.length_append] at hlt ⊢
    have hold : x ∈ b.restarts → x.toNat < max 1 (b.buffer.length+record.length) := by
      intro hm
      have := h.marks (by omega) x hm
      omega
    rcases hx.restarts with hr | hr
    · rw [hr] at hm
      exact hold hm
    · rw [hr,List.mem_append,List.mem_singleton] at hm
      rcases hm with hm | rfl
      · exact hold hm
      · rw [toNat_ofNat32 (by omega)]
        omega

/-- Inside an interval an entry that shares bytes with the one before it has the difference of
the sizes written down. -/
def WritesDelta (b : IndexBlockBuilder) (key : Bytes) : Prop :=
  ¬ b.counter ≥ b.restartInterval ∧ sharedPrefixLen b.lastKey key ≠ 0

def deltaRecord (b : IndexBlockBuilder) (e : Bytes × BlockHandle) (delta : Int64) : Bytes :=
  let shared := sharedPrefixLen b.lastKey e.1
  indexKeyBytes shared (e.1.drop shared) ++ putVarsigned64 delta

theorem add_cases {b b' : IndexBlockBuilder} {e : Bytes × BlockHandle}
    (h : b.add e.1 e.2 = .ok b') :
    b'.restartInterval = b.restartInterval ∧ b'.lastKey = e.1 ∧ b'.lastHandle = some e.2 ∧
    (¬ b.WritesDelta e.1 ∧ b'.buffer = b.buffer ++ indexRecord e ∧ (b'.restarts = b.restarts ∨
        b'.restarts = b.restarts ++ [UInt32.ofNat b.buffer.length]) ∨
      b.WritesDelta e.1 ∧ b'.restarts = b.restarts ∧ ∃ prev delta, b.lastHandle = some prev ∧
        checkedSubI64 e.2.size.toInt64 prev.size.toInt64 = .ok delta ∧
        b'.buffer = b.buffer ++ b.deltaRecord e delta) := by
  by_cases hr : b.counter ≥ b.restartInterval
  · have hw : ¬ b.WritesDelta e.1 := fun hw => hw.1 hr
    simp only [IndexBlockBuilder.add,hr,↓reduceIte,true_or,pure_eq_ok,ok_bind,List.drop_zero,
      Except.ok.injEq] at h
    subst h
    exact ⟨rfl,rfl,rfl,.inl ⟨hw,List.append_assoc _ _ _,.inr rfl⟩⟩
  · by_cases hz : sharedPrefixLen b.lastKey e.1 = 0
    · have hw : ¬ b.WritesDelta e.1 := fun hw => hw.2 hz
      simp only [IndexBlockBuilder.add,hr,↓reduceIte,hz,or_true,pure_eq_ok,ok_bind,
        List.drop_zero,Except.ok.injEq] at h
      subst h
      exact ⟨rfl,rfl,rfl,.inl ⟨hw,List.append_assoc _ _ _,.inl rfl⟩⟩
    · simp only [IndexBlockBuilder.add,hr,↓reduceIte,hz,or_self] at h
      obtain ⟨prev,hprev,h⟩ := bind_eq_ok h
      obtain ⟨delta,hd,h⟩ := bind_eq_ok h
      obtain rfl := Except.ok.inj h
      refine ⟨rfl,rfl,rfl,.inr ⟨⟨hr,hz⟩,rfl,prev,delta,expect_eq_ok hprev,hd,?_⟩⟩
      exact List.append_assoc _ _ _

theorem add_ok {b : IndexBlockBuilder} {e : Bytes × BlockHandle}
    (h : b.WritesDelta e.1 → ∃ prev delta, b.lastHandle = some prev ∧
      checkedSubI64 e.2.size.toInt64 prev.size.toInt64 = .ok delta) :
    ∃ b', b.add e.1 e.2 = .ok b' := by
  by_cases hr : b.counter ≥ b.restartInterval
  · simp only [IndexBlockBuilder.add,hr,↓reduceIte,true_or,pure_eq_ok,ok_bind]
    exact ⟨_,rfl⟩
  · by_cases hz : sharedPrefixLen b.lastKey e.1 = 0
    · simp only [IndexBlockBuilder.add,hr,↓reduceIte,hz,or_true,pure_eq_ok,ok_bind]
      exact ⟨_,rfl⟩
    · obtain ⟨prev,delta,hprev,hd⟩ := h ⟨hr,hz⟩
      simp only [IndexBlockBuilder.add,hr,↓reduceIte,hz,or_self,hprev,expect,ok_bind,hd,
        pure_eq_ok]
      exact ⟨_,rfl⟩

theorem Marked.last_ne {b : IndexBlockBuilder} (h : b.Marked) {key : Bytes}
    (hw : b.WritesDelta key) : b.lastKey ≠ [] ∧ b.buffer ≠ [] := by
  have hle := (sharedPrefixLen_spec b.lastKey key).1
  have hlast := h.last
  have hpos := Nat.pos_of_ne_zero hw.2
  exact ⟨List.length_pos_iff.mp (by omega),List.length_pos_iff.mp (by omega)⟩

/-- An entry written as a difference reads back for a reader that has the one before it and
sees no restart point here. -/
theorem extends_delta {b b' : IndexBlockBuilder} (h : b.Marked) {e : Bytes × BlockHandle}
    {prev : BlockHandle} (hprev : b.lastHandle = some prev) (hn : prev.Next e.2) {delta : Int64}
    (hd : checkedSubI64 e.2.size.toInt64 prev.size.toInt64 = .ok delta)
    (hw : b.WritesDelta e.1) (hb : b'.buffer = b.buffer ++ b.deltaRecord e delta)
    (hk : b'.lastKey = e.1) (hh : b'.lastHandle = some e.2) (hr : b'.restarts = b.restarts) :
    b.Extends b' e (b.deltaRecord e delta) where
  buffer := hb
  record_ne := by
    have hpos : 1 ≤ (putVarsigned64 delta).length := (putVarint64_length _).1
    intro hz
    have hlen := congrArg List.length hz
    simp only [deltaRecord,List.length_append,List.length_nil] at hlen
    omega
  lastKey := hk
  lastHandle := hh
  restarts := .inl hr
  reads := by
    intro post R hl hR
    obtain ⟨h₁,h₂,h₃⟩ := sharedPrefixLen_spec b.lastKey e.1
    have hlast := h.last
    have hs := hw.2
    have hnot : b.buffer.length ∉ R := hR hr (h.last_ne hw).2
    simp only [deltaRecord] at hl ⊢
    generalize sharedPrefixLen b.lastKey e.1 = shared at hs h₁ h₂ h₃ hl ⊢
    have hkey : b.lastKey.take shared ++ e.1.drop shared = e.1 := by
      rw [h₃,List.take_append_drop]
    have hdl : e.1.length-shared ≤ (indexKeyBytes shared (e.1.drop shared)).length := by
      simp only [indexKeyBytes,List.length_append,List.length_drop]
      omega
    have hbytes : b.buffer ++ (indexKeyBytes shared (e.1.drop shared) ++ putVarsigned64 delta) ++
        post = b.buffer ++ indexKeyBytes shared (e.1.drop shared) ++
          (putVarsigned64 delta ++ post) := by
      simp only [List.append_assoc]
    rw [hbytes] at hl ⊢
    simp only [List.length_append] at hl
    have hread := readIndexEntry_key b.buffer (putVarsigned64 delta ++ post) b.lastKey
      (e.1.drop shared) shared b.lastHandle R h₁ (by omega)
      (by rw [List.length_drop]; omega) (by simp only [List.length_append]; omega)
    have hhandle := readHandle_delta (b.buffer ++ indexKeyBytes shared (e.1.drop shared)) post
      hn hd
    rw [List.append_assoc (b.buffer ++ _),List.length_append] at hhandle
    have hfull : (R.contains b.buffer.length || decide (shared = 0)) = false := by
      simp [hnot,hs]
    rw [hread,hfull,hprev,hhandle,hkey,ok_bind,List.length_append,Nat.add_assoc]
    rfl

theorem Marked.add {b b' : IndexBlockBuilder} (h : b.Marked) {e : Bytes × BlockHandle}
    (hadd : b.add e.1 e.2 = .ok b')
    (hn : b.WritesDelta e.1 → ∀ prev, b.lastHandle = some prev → prev.Next e.2) :
    ∃ record, b.Extends b' e record ∧ b'.Marked := by
  obtain ⟨-,hk,hh,⟨-,hb,hr⟩ | ⟨hw,hr,prev,delta,hprev,hd,hb⟩⟩ := add_cases hadd
  · have hx := extends_full hb hk hh hr
    have hl := indexRecord_key_le e
    refine ⟨_,hx,hx.marked h ?_⟩
    rw [hb,List.length_append]
    omega
  · have hx := extends_delta h hprev (hn hw prev hprev) hd hw hb hk hh hr
    have hs := (sharedPrefixLen_spec b.lastKey e.1).1
    have hlast := h.last
    refine ⟨_,hx,hx.marked h ?_⟩
    rw [hb]
    simp only [deltaRecord,indexKeyBytes,List.length_append,List.length_drop]
    omega

theorem Sound.add {b : IndexBlockBuilder} (h : b.Sound) (e : Bytes × BlockHandle)
    (hf : e.2.InFile) (hn : ∀ prev, b.lastHandle = some prev → prev.Next e.2) :
    ∃ b', b.add e.1 e.2 = .ok b' ∧ b'.lastHandle = some e.2 ∧ b'.Sound := by
  obtain ⟨b',hadd⟩ := add_ok (b:=b) (e:=e) (fun hw => by
    obtain ⟨prev,hprev⟩ := h.handle (h.marked.last_ne hw).1
    obtain ⟨delta,hd⟩ := sizeDelta (h.inFile prev hprev) hf
    exact ⟨prev,delta,hprev,hd⟩)
  obtain ⟨hi,-,hh,-⟩ := add_cases hadd
  obtain ⟨record,-,hm⟩ := h.marked.add hadd (fun _ => hn)
  refine ⟨b',hadd,hh,by rw [hi]; exact h.interval,hm.last,hm.handle,?_,hm.marks⟩
  intro prev hp
  rw [hh] at hp
  obtain rfl := Option.some.inj hp
  exact hf

/-- A record in a longer block. The restart points that come later are behind it, so that the
reader, who knows all of them, decides about it as the builder did. -/
theorem Extends.reads_in {b b₁ b' : IndexBlockBuilder} (h : b.Marked) {e : Bytes × BlockHandle}
    {record post : Bytes} (hx : b.Extends b₁ e record) {later : List UInt32}
    (hall : b'.buffer = b.buffer ++ record ++ post) (hrst : b'.restarts = b₁.restarts ++ later)
    (hlt : b'.buffer.length < 2^32) (hlater : ∀ x ∈ later, b₁.buffer.length ≤ x.toNat) :
    readIndexEntry b'.buffer (b'.restarts.map UInt32.toNat) (b.lastKey,b.lastHandle)
        b.buffer.length = .ok (e,(e.1,some e.2),b.buffer.length+record.length) := by
  have hpos := List.length_pos_iff.mpr hx.record_ne
  have hlen : b.buffer.length+record.length+post.length < 2^32 := by
    rw [hall] at hlt
    simpa only [List.length_append] using hlt
  rw [hx.buffer,List.length_append] at hlater
  rw [hall]
  refine hx.reads post _ (by rw [← hall]; exact hlt) ?_
  intro hsame hbne hmem
  obtain ⟨x,hm,hxe⟩ := List.mem_map.mp hmem
  rw [hrst,hsame] at hm
  have hbpos := List.length_pos_iff.mpr hbne
  rcases List.mem_append.mp hm with hm | hm
  · have := h.marks (by omega) x hm
    omega
  · have := hlater x hm
    omega

theorem Extends.marks {b b' : IndexBlockBuilder} {e : Bytes × BlockHandle} {record : Bytes}
    (hx : b.Extends b' e record) : ∃ mark, b'.restarts = b.restarts ++ mark ∧
      (b.buffer.length < 2^32 → ∀ x ∈ mark, x.toNat = b.buffer.length) := by
  rcases hx.restarts with hr | hr
  · exact ⟨[],by simp [hr],by simp⟩
  · refine ⟨_,hr,fun hlt x hm => ?_⟩
    rw [List.mem_singleton.mp hm,toNat_ofNat32 (by omega)]

def Follows : IndexBlockBuilder → List (Bytes × BlockHandle) → Prop
  | _, [] => True
  | b, e :: hs =>
    (b.WritesDelta e.1 → ∀ prev, b.lastHandle = some prev → prev.Next e.2) ∧
      ∀ b', b.add e.1 e.2 = .ok b' → b'.Follows hs

theorem Marked.addAll {b b' : IndexBlockBuilder} (h : b.Marked) {hs : List (Bytes × BlockHandle)}
    (hadd : hs.foldlM (fun b e => b.add e.1 e.2) b = .ok b') (hf : b.Follows hs) :
    ∃ post later, b'.buffer = b.buffer ++ post ∧ b'.restarts = b.restarts ++ later ∧
      (b'.buffer.length < 2^32 → (∀ x ∈ later, b.buffer.length ≤ x.toNat) ∧
        Cursor.Path (readIndexEntry b'.buffer (b'.restarts.map UInt32.toNat))
          (b.lastKey,b.lastHandle) b.buffer.length hs (b'.lastKey,b'.lastHandle)
          b'.buffer.length) := by
  induction hs generalizing b with
  | nil =>
    obtain rfl := Except.ok.inj hadd
    exact ⟨[],[],by simp,by simp,fun _ => ⟨by simp,.nil⟩⟩
  | cons e hs ih =>
    rw [List.foldlM_cons] at hadd
    obtain ⟨b₁,hb₁,hadd⟩ := bind_eq_ok hadd
    obtain ⟨record,hx,h₁⟩ := h.add hb₁ hf.1
    obtain ⟨post,later,hbuf,hrst,hread⟩ := ih h₁ hadd (hf.2 b₁ hb₁)
    obtain ⟨mark,hmark,hplace⟩ := hx.marks
    have hpos := List.length_pos_iff.mpr hx.record_ne
    have hlen₁ : b₁.buffer.length = b.buffer.length+record.length := by
      rw [hx.buffer,List.length_append]
    have hall : b'.buffer = b.buffer ++ record ++ post := by rw [hbuf,hx.buffer]
    refine ⟨record ++ post,mark ++ later,?_,?_,fun hlt => ?_⟩
    · rw [hall,List.append_assoc]
    · rw [hrst,hmark,List.append_assoc]
    · obtain ⟨hlater,hpath⟩ := hread hlt
      have hfirst := hx.reads_in h hall hrst hlt hlater
      have hbl : b.buffer.length < 2^32 := by
        rw [hbuf,List.length_append] at hlt
        omega
      rw [hx.lastKey,hx.lastHandle,hlen₁] at hpath
      refine ⟨fun x hm => ?_,.cons hfirst (by omega) hpath⟩
      rcases List.mem_append.mp hm with hm | hm
      · exact (hplace hbl x hm).ge
      · have := hlater x hm
        omega

theorem Sound.addAll {b : IndexBlockBuilder} (h : b.Sound) (hs : List (Bytes × BlockHandle))
    (hf : ∀ e ∈ hs, e.2.InFile)
    (hn : (b.lastHandle.toList ++ hs.map Prod.snd).IsChain BlockHandle.Next) :
    (∃ b', hs.foldlM (fun b e => b.add e.1 e.2) b = .ok b') ∧ b.Follows hs := by
  induction hs generalizing b with
  | nil => exact ⟨⟨b,rfl⟩,trivial⟩
  | cons e hs ih =>
    have hnext : ∀ prev, b.lastHandle = some prev → prev.Next e.2 := by
      intro prev hp
      rw [hp] at hn
      exact (List.isChain_cons_cons.mp hn).1
    have htail : ((some e.2).toList ++ hs.map Prod.snd).IsChain BlockHandle.Next := by
      cases hp : b.lastHandle with
      | none => simpa [hp] using hn
      | some prev =>
        rw [hp] at hn
        exact (List.isChain_cons_cons.mp hn).2
    obtain ⟨b₁,hadd,hh,h₁⟩ := h.add e (hf e (by simp)) hnext
    obtain ⟨hok,hfollows⟩ := ih h₁ (fun x hm => hf x (by simp [hm])) (by rw [hh]; exact htail)
    refine ⟨?_,fun _ => hnext,fun b₂ hb₂ => ?_⟩
    · rw [List.foldlM_cons,hadd]
      exact hok
    · obtain rfl := Except.ok.inj (hadd.symm.trans hb₂)
      exact hfollows

theorem new_ok {r : Nat} (hr : 1 ≤ r) : new r = .ok ⟨r,[],[0],[],none,0⟩ := by
  simp only [new,require,ge_iff_le,hr,decide_true,↓reduceIte,ok_bind,pure_eq_ok]

theorem new_cases {r : Nat} {b : IndexBlockBuilder} (h : new r = .ok b) :
    1 ≤ r ∧ b = ⟨r,[],[0],[],none,0⟩ := by
  by_cases hr : 1 ≤ r
  · exact ⟨hr,Except.ok.inj (h.symm.trans (new_ok hr))⟩
  · simp [new,require,hr] at h

theorem new_sound {r : Nat} (hr : 1 ≤ r) : Sound ⟨r,[],[0],[],none,0⟩ :=
  ⟨hr,by simp,by simp,by simp,by simp⟩

theorem finish_reads {r : Nat} {b₀ b : IndexBlockBuilder} {hs : List (Bytes × BlockHandle)}
    (hnew : new r = .ok b₀) (hadd : hs.foldlM (fun b e => b.add e.1 e.2) b₀ = .ok b)
    (hf : b₀.Follows hs) (hl : b.finish.length < 2^32) :
    ∃ parsed, parseBlock b.finish = .ok parsed ∧ forEachIndexEntry parsed = (hs,.ok ()) := by
  obtain ⟨hr,rfl⟩ := new_cases hnew
  obtain ⟨post,later,-,-,hread⟩ := (new_sound hr).marked.addAll hadd hf
  rw [finish,blockImage_length] at hl
  have himg := parseBlock_whole b.buffer (show b.restarts.length < 2^32 by omega)
  refine ⟨_,himg.1,?_⟩
  rw [forEachIndexEntry,himg.2]
  exact Cursor.walk_path_end (hread (by omega)).2 (by simp)

end IndexBlockBuilder

/-- Index entries whose blocks follow one another come back from an index block of any restart
interval. Building it never lacks a previous handle. -/
theorem indexBlock_roundTrip {r : Nat} (hr : 1 ≤ r) (hs : List (Bytes × BlockHandle))
    (hn : (hs.map Prod.snd).IsChain (fun a b => b.offset.toNat = a.offset.toNat+a.size.toNat+5))
    (hf : ∀ e ∈ hs, e.2.size.toNat < 2^63 ∧ e.2.offset.toNat+e.2.size.toNat+5 < 2^64) :
    ∃ b, (IndexBlockBuilder.new r >>= fun b => hs.foldlM (fun b e => b.add e.1 e.2) b) = .ok b ∧
      (b.finish.length < 2^32 → ∃ parsed, parseBlock b.finish = .ok parsed ∧
        forEachIndexEntry parsed = (hs,.ok ())) := by
  obtain ⟨⟨b,hb⟩,hfollows⟩ := (IndexBlockBuilder.new_sound hr).addAll hs hf hn
  refine ⟨b,by rw [IndexBlockBuilder.new_ok hr]; exact hb,fun hl => ?_⟩
  exact IndexBlockBuilder.finish_reads (IndexBlockBuilder.new_ok hr) hb hfollows hl

def threeHandles : List (Bytes × BlockHandle) :=
  [([7,1],⟨0,20⟩),([7,2],⟨25,10⟩),([8],⟨40,30⟩)]

theorem indexBlock_roundTrip_three :
    ∃ b, (IndexBlockBuilder.new 2 >>= fun b =>
        threeHandles.foldlM (fun b e => b.add e.1 e.2) b) = .ok b ∧
      b.finish.length < 2^32 ∧ ∃ parsed, parseBlock b.finish = .ok parsed ∧
        forEachIndexEntry parsed = (threeHandles,.ok ()) := by
  obtain ⟨b,hb,h⟩ := indexBlock_roundTrip (r:=2) (by decide) threeHandles (by decide) (by decide)
  have hl : b.finish.length < 2^32 := by
    have hlen : ((IndexBlockBuilder.new 2 >>= fun b =>
        threeHandles.foldlM (fun b e => b.add e.1 e.2) b).map
          (fun b => b.finish.length)) = .ok 27 := by decide
    rw [hb] at hlen
    have hb27 : b.finish.length = 27 := Except.ok.inj hlen
    rw [hb27]
    decide
  exact ⟨b,hb,hl,h hl⟩

end SstCompactor
