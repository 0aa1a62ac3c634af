import SstCompactor.Format.Grammar
import Mathlib.Data.List.Induction

set_option autoImplicit false

namespace SstCompactor
open FixedWidth

/-- Entries, the restart array and its length, as both builders write them. -/
def blockImage (buffer : Bytes) (restarts : List UInt32) : Bytes :=
  buffer ++ restarts.flatMap (fun r => leBytes 4 r.toNat) ++
    leBytes 4 (UInt32.ofNat restarts.length).toNat

theorem flatMap_leBytes_length (restarts : List UInt32) :
    (restarts.flatMap (fun r => leBytes 4 r.toNat)).length = 4*restarts.length := by
  induction restarts with
  | nil => rfl
  | cons r rs ih =>
    simp only [List.flatMap_cons,List.length_append,leBytes_length,ih,List.length_cons]
    omega

theorem blockImage_length (buffer : Bytes) (restarts : List UInt32) :
    (blockImage buffer restarts).length = buffer.length+4*restarts.length+4 := by
  simp only [blockImage,List.length_append,flatMap_leBytes_length,leBytes_length]

theorem readU32_restart (pre post : Bytes) (restarts : List UInt32) {i : Nat}
    (hi : i < restarts.length) :
    readU32 (pre ++ restarts.flatMap (fun r => leBytes 4 r.toNat) ++ post) (pre.length+i*4) =
      .ok restarts[i] := by
  have hsplit : restarts = restarts.take i ++ restarts[i] :: restarts.drop (i+1) := by
    rw [← List.drop_eq_getElem_cons hi,List.take_append_drop]
  have hflat : restarts.flatMap (fun r => leBytes 4 r.toNat) =
      (restarts.take i).flatMap (fun r => leBytes 4 r.toNat) ++ (leBytes 4 restarts[i].toNat ++
        (restarts.drop (i+1)).flatMap (fun r => leBytes 4 r.toNat)) := by
    conv_lhs => rw [hsplit,List.flatMap_append,List.flatMap_cons]
  refine readU32_at (p:=pre ++ (restarts.take i).flatMap (fun r => leBytes 4 r.toNat))
    (q:=(restarts.drop (i+1)).flatMap (fun r => leBytes 4 r.toNat) ++ post) restarts[i] ?_ ?_
  · rw [hflat]
    simp only [List.append_assoc]
  · rw [List.length_append,flatMap_leBytes_length,List.length_take]
    omega

/-- The reader takes the low 32 bits of the restart count: of a longer restart array the front
part is left to be read as entries. -/
theorem parseBlock_image (buffer : Bytes) (front back : List UInt32)
    (hb : back.length = (front ++ back).length % 2^32) :
    parseBlock (blockImage buffer (front ++ back)) =
      .ok ⟨blockImage buffer (front ++ back),back⟩ ∧
    (ParsedBlock.mk (blockImage buffer (front ++ back)) back).data =
      .ok (buffer ++ front.flatMap (fun r => leBytes 4 r.toNat)) := by
  have hlen := blockImage_length buffer (front ++ back)
  have himg : blockImage buffer (front ++ back) =
      (buffer ++ front.flatMap (fun r => leBytes 4 r.toNat)) ++
        back.flatMap (fun r => leBytes 4 r.toNat) ++
        leBytes 4 (UInt32.ofNat (front ++ back).length).toNat := by
    simp [blockImage,List.flatMap_append]
  have hcount : (UInt32.ofNat (front ++ back).length).toNat = back.length := by
    rw [UInt32.toNat_ofNat']
    exact hb.symm
  generalize hp : buffer ++ front.flatMap (fun r => leBytes 4 r.toNat) = pre at himg ⊢
  generalize hr : back.flatMap (fun r => leBytes 4 r.toNat) = array at himg
  generalize blockImage buffer (front ++ back) = contents at *
  have hpl : pre.length = buffer.length+4*front.length := by
    rw [← hp,List.length_append,flatMap_leBytes_length]
  have hal : array.length = 4*back.length := by rw [← hr,flatMap_leBytes_length]
  rw [List.length_append] at hlen
  have hn4 : contents.length-4 = (pre ++ array).length := by rw [List.length_append]; omega
  have hnum : readU32 contents (contents.length-4) =
      .ok (UInt32.ofNat (front ++ back).length) := by
    exact readU32_at (q:=[]) (UInt32.ofNat (front ++ back).length)
      (by rw [himg,List.append_nil]) hn4
  have hstart : contents.length-4-back.length*4 = pre.length := by omega
  have hmap : (List.range back.length).mapM (fun i => readU32 contents (pre.length+i*4)) =
      .ok back := by
    rw [mapM_ok (g:=fun i => back[i]?.getD 0)]
    · congr 1
      apply List.ext_getElem
      · simp
      · intro i h₁ h₂
        simp [List.getElem?_eq_getElem h₂]
    · intro i hi
      have hi := List.mem_range.mp hi
      rw [himg,← hr,readU32_restart pre _ back hi,List.getElem?_eq_getElem hi]
      rfl
  have h4 : ¬ contents.length < 4 := by omega
  have hfit : ¬ contents.length < 4+back.length*4 := by omega
  constructor
  · simp only [parseBlock,h4,↓reduceIte,pure_eq_ok,ok_bind,hnum,hcount,hfit,hstart,hmap]
  · rw [ParsedBlock.data]
    simp only
    rw [checkedSub_of_le (by omega),ok_bind,checkedSub_of_le (by omega),ok_bind,hstart,himg]
    simpa using slice_append [] pre (array ++ leBytes 4 _) (b:=pre.length) (by simp)

theorem parseBlock_whole (buffer : Bytes) {restarts : List UInt32}
    (h : restarts.length < 2^32) :
    parseBlock (blockImage buffer restarts) = .ok ⟨blockImage buffer restarts,restarts⟩ ∧
      (ParsedBlock.mk (blockImage buffer restarts) restarts).data = .ok buffer := by
  have himg := parseBlock_image buffer [] restarts (by rw [List.nil_append,Nat.mod_eq_of_lt h])
  rwa [List.nil_append,List.flatMap_nil,List.append_nil] at himg

def sharedPrefixLen (a b : Bytes) : Nat :=
  ((a.zip b).takeWhile (fun p => p.1 == p.2)).length

structure BlockBuilder where
  restartInterval : Nat
  buffer : Bytes
  restarts : List UInt32
  lastKey : Bytes
  counter : Nat
  finished : Bool
  deriving Repr

def recordBytes (shared : Nat) (keyDelta value : Bytes) : Bytes :=
  putVarint32 (UInt32.ofNat shared) ++ putVarint32 (UInt32.ofNat keyDelta.length) ++
    putVarint32 (UInt32.ofNat value.length) ++ keyDelta ++ value

namespace BlockBuilder

def empty (restartInterval : Nat) : BlockBuilder := ⟨restartInterval,[],[0],[],0,false⟩

def new (restartInterval : Nat) : Exec BlockBuilder := do
  require (restartInterval ≥ 1)
  pure (empty restartInterval)

def isEmpty (b : BlockBuilder) : Bool := b.buffer.isEmpty

def currentSizeEstimate (b : BlockBuilder) : Nat := b.buffer.length+b.restarts.length*4+4

/-- The body of `add` behind its assertions. -/
def append (b : BlockBuilder) (e : Entry) : BlockBuilder :=
  let (key,value) := e
  let atRestart := b.counter ≥ b.restartInterval
  let shared := if atRestart then 0 else sharedPrefixLen b.lastKey key
  let restarts := if atRestart then b.restarts ++ [UInt32.ofNat b.buffer.length] else b.restarts
  let counter := if atRestart then 0 else b.counter
  { b with
    buffer := b.buffer ++ recordBytes shared (key.drop shared) value
    restarts
    lastKey := key
    counter := counter+1 }

def add (b : BlockBuilder) (e : Entry) : Exec BlockBuilder := do
  require (!b.finished)
  require (b.counter ≤ b.restartInterval)
  pure (b.append e)

def finish (b : BlockBuilder) : Bytes := blockImage b.buffer b.restarts

end BlockBuilder

theorem sharedPrefixLen_spec (a b : Bytes) :
    sharedPrefixLen a b ≤ a.length ∧ sharedPrefixLen a b ≤ b.length ∧
      a.take (sharedPrefixLen a b) = b.take (sharedPrefixLen a b) := by
  induction a generalizing b with
  | nil => simp [sharedPrefixLen]
  | cons x a ih =>
    cases b with
    | nil => simp [sharedPrefixLen]
    | cons y b =>
      obtain ⟨ha,hb,ht⟩ := ih b
      by_cases hxy : x = y
      · subst hxy
        have hs : sharedPrefixLen (x :: a) (x :: b) = sharedPrefixLen a b+1 := by
          simp [sharedPrefixLen]
        rw [hs]
        simp only [List.length_cons,List.take_succ_cons,ht]
        exact ⟨by omega,by omega,trivial⟩
      · have hs : sharedPrefixLen (x :: a) (y :: b) = 0 := by
          simp [sharedPrefixLen,hxy]
        simp [hs]

theorem recordBytes_length (shared : Nat) (keyDelta value : Bytes) :
    3 ≤ (recordBytes shared keyDelta value).length ∧
      (recordBytes shared keyDelta value).length ≤ 30+keyDelta.length+value.length := by
  have h := fun v : UInt32 => putVarint64_length v.toUInt64
  have h₁ := h (UInt32.ofNat shared)
  have h₂ := h (UInt32.ofNat keyDelta.length)
  have h₃ := h (UInt32.ofNat value.length)
  simp only [recordBytes,putVarint32,List.length_append]
  omega

/-- Bytes that stand for entries, read with `last` in the key buffer and leaving `fin` there. -/
inductive Records : Bytes → Bytes → List Entry → Bytes → Prop where
  | nil {last : Bytes} : Records last [] [] last
  | cons {last keyDelta value rest fin : Bytes} {shared : Nat} {es : List Entry} :
      shared ≤ last.length → shared < 2^32 → keyDelta.length < 2^32 → value.length < 2^32 →
      Records (last.take shared ++ keyDelta) rest es fin →
      Records last (recordBytes shared keyDelta value ++ rest)
        ((last.take shared ++ keyDelta,value) :: es) fin

theorem Records.append {last mid fin bs cs : Bytes} {es fs : List Entry}
    (h₁ : Records last bs es mid) (h₂ : Records mid cs fs fin) :
    Records last (bs ++ cs) (es ++ fs) fin := by
  induction h₁ with
  | nil => exact h₂
  | cons hs hs' hk hv _ ih =>
    rw [List.append_assoc]
    exact .cons hs hs' hk hv (ih h₂)

theorem recordBytes_record {last keyDelta value : Bytes} {shared : Nat}
    (hs : shared ≤ last.length) (hs' : shared < 2^32) (hk : keyDelta.length < 2^32)
    (hv : value.length < 2^32) :
    Record last (recordBytes shared keyDelta value) (last.take shared ++ keyDelta,value) :=
  .mk (putVarint32_varint hs') (putVarint32_varint hk) (putVarint32_varint hv) hs

theorem Records.denotes {last bs fin : Bytes} {es : List Entry} (h : Records last bs es fin) :
    Denotes last bs es := by
  induction h with
  | nil => exact .nil
  | cons hs hs' hk hv _ ih => exact .cons (recordBytes_record hs hs' hk hv) ih

theorem Records.fin_eq {last bs fin : Bytes} {es : List Entry} (h : Records last bs es fin) :
    fin = (es.map Prod.fst).getLastD last := by
  induction h with
  | nil => rfl
  | cons _ _ _ _ _ ih => rw [ih,List.map_cons,List.getLastD_cons]

theorem Records.path {data last bs fin q : Bytes} {es : List Entry} {p : Nat}
    (h : Records last bs es fin) (hl : data.length < 2^63) (hd : data.drop p = bs ++ q) :
    Cursor.Path (readEntry data) last p es fin (p+bs.length) := by
  rw [h.fin_eq]
  exact h.denotes.path hl hd

structure BlockBuilder.Ready (b : BlockBuilder) : Prop where
  interval_pos : 1 ≤ b.restartInterval
  counter_le : b.counter ≤ b.restartInterval
  not_finished : b.finished = false

theorem BlockBuilder.empty_ready {interval : Nat} (h : 1 ≤ interval) : (empty interval).Ready :=
  ⟨h,Nat.zero_le _,rfl⟩

theorem BlockBuilder.Ready.append {b : BlockBuilder} (h : b.Ready) (e : Entry) :
    (b.append e).Ready := by
  refine ⟨h.interval_pos,?_,h.not_finished⟩
  have hi := h.interval_pos
  by_cases hr : b.counter ≥ b.restartInterval
  · simpa only [BlockBuilder.append,hr,↓reduceIte] using hi
  · simp only [BlockBuilder.append,hr,↓reduceIte]
    omega

theorem BlockBuilder.Ready.add {b : BlockBuilder} (h : b.Ready) (e : Entry) :
    b.add e = .ok (b.append e) := by
  simp [BlockBuilder.add,require,h.not_finished,h.counter_le]

theorem BlockBuilder.Ready.foldlM_add {b : BlockBuilder} (h : b.Ready) (es : List Entry) :
    es.foldlM BlockBuilder.add b = .ok (es.foldl BlockBuilder.append b) := by
  induction es generalizing b with
  | nil => rfl
  | cons e es ih =>
    simp only [List.foldlM_cons,List.foldl_cons,h.add e,ok_bind]
    exact ih (h.append e)

def Fits (e : Entry) : Prop := e.1.length < 2^32 ∧ e.2.length < 2^32

theorem BlockBuilder.append_records {b : BlockBuilder} {es : List Entry}
    (h : Records [] b.buffer es b.lastKey) {e : Entry} (hf : Fits e) :
    Records [] (b.append e).buffer (es ++ [e]) (b.append e).lastKey := by
  obtain ⟨key,value⟩ := e
  obtain ⟨hk,hv⟩ := hf
  simp only at hk hv
  have hrec : ∀ shared, shared ≤ b.lastKey.length → shared ≤ key.length →
      b.lastKey.take shared = key.take shared →
      Records [] (b.buffer ++ recordBytes shared (key.drop shared) value)
        (es ++ [(key,value)]) key := by
    intro shared hl hkl ht
    have hkey : b.lastKey.take shared ++ key.drop shared = key := by
      rw [ht,List.take_append_drop]
    have hdelta : (key.drop shared).length < 2^32 := by
      rw [List.length_drop]
      omega
    have hone := Records.cons hl (by omega) hdelta hv .nil
    rw [hkey,List.append_nil] at hone
    exact h.append hone
  obtain ⟨h₁,h₂,h₃⟩ := sharedPrefixLen_spec b.lastKey key
  by_cases hr : b.counter ≥ b.restartInterval
  · simpa only [append,hr,↓reduceIte] using hrec 0 (by omega) (by omega) rfl
  · simpa only [append,hr,↓reduceIte] using hrec _ h₁ h₂ h₃

def BlockBuilder.ofEntries (interval : Nat) (es : List Entry) : BlockBuilder :=
  es.foldl append (empty interval)

theorem BlockBuilder.ofEntries_snoc (interval : Nat) (es : List Entry) (e : Entry) :
    ofEntries interval (es ++ [e]) = (ofEntries interval es).append e := by
  simp [ofEntries]

theorem BlockBuilder.ofEntries_records (interval : Nat) (es : List Entry)
    (hf : ∀ e ∈ es, Fits e) :
    Records [] (ofEntries interval es).buffer es (ofEntries interval es).lastKey := by
  induction es using List.reverseRecOn with
  | nil => exact .nil
  | append_singleton es e ih =>
    rw [ofEntries_snoc]
    exact append_records (ih (fun x hx => hf x (by simp [hx]))) (hf e (by simp))

theorem BlockBuilder.ofEntries_ready {interval : Nat} (hi : 1 ≤ interval) (es : List Entry) :
    (ofEntries interval es).Ready := by
  induction es using List.reverseRecOn with
  | nil => exact empty_ready hi
  | append_singleton es e ih =>
    rw [ofEntries_snoc]
    exact ih.append e

theorem BlockBuilder.append_sizes (b : BlockBuilder) (e : Entry) :
    b.buffer.length+3 ≤ (b.append e).buffer.length ∧
      (b.append e).restarts.length ≤ b.restarts.length+1 := by
  obtain ⟨key,value⟩ := e
  have hp := fun s => (recordBytes_length s (key.drop s) value).1
  by_cases hr : b.counter ≥ b.restartInterval
  · simp only [append,hr,↓reduceIte,List.length_append,List.length_singleton]
    exact ⟨by have := hp 0; omega,Nat.le_refl _⟩
  · simp only [append,hr,↓reduceIte,List.length_append]
    exact ⟨by have := hp (sharedPrefixLen b.lastKey key); omega,Nat.le_succ _⟩

theorem BlockBuilder.ofEntries_sizes (interval : Nat) (es : List Entry) :
    3*es.length ≤ (ofEntries interval es).buffer.length ∧
      (ofEntries interval es).restarts.length ≤ es.length+1 := by
  induction es using List.reverseRecOn with
  | nil => exact ⟨Nat.zero_le _,Nat.le_refl _⟩
  | append_singleton es e ih =>
    obtain ⟨h₁,h₂⟩ := append_sizes (ofEntries interval es) e
    rw [ofEntries_snoc,List.length_append,List.length_singleton]
    omega

theorem BlockBuilder.append_length_le (b : BlockBuilder) (e : Entry) :
    (b.append e).buffer.length ≤ b.buffer.length+(30+e.1.length+e.2.length) := by
  obtain ⟨key,value⟩ := e
  have hp := fun s => (recordBytes_length s (key.drop s) value).2
  simp only [append,List.length_append]
  generalize (if b.counter ≥ b.restartInterval then 0 else sharedPrefixLen b.lastKey key) = s
  have := hp s
  rw [List.length_drop] at this
  omega

theorem BlockBuilder.ofEntries_length_le (interval : Nat) (es : List Entry) :
    (ofEntries interval es).finish.length ≤ 34*es.length+totalBytes es+8 := by
  have hr := (ofEntries_sizes interval es).2
  have hb : (ofEntries interval es).buffer.length ≤ 30*es.length+totalBytes es := by
    clear hr
    induction es using List.reverseRecOn with
    | nil => exact Nat.zero_le _
    | append_singleton es e ih =>
      have ha := append_length_le (ofEntries interval es) e
      rw [ofEntries_snoc]
      simp only [totalBytes,List.map_append,List.sum_append,List.length_append,List.map_cons,
        List.map_nil,List.sum_cons,List.sum_nil,List.length_singleton] at ih ⊢
      omega
  rw [finish,blockImage_length]
  omega

/-- Reading a block undoes building it. -/
theorem forEachEntry_ofEntries {interval : Nat} {es : List Entry}
    (hf : ∀ e ∈ es, Fits e) (hr : (BlockBuilder.ofEntries interval es).restarts.length < 2^32)
    (hl : (BlockBuilder.ofEntries interval es).finish.length < 2^63) :
    ∃ parsed, parseBlock (BlockBuilder.ofEntries interval es).finish = .ok parsed ∧
      forEachEntry parsed = (es,.ok ()) := by
  have hrec := BlockBuilder.ofEntries_records interval es hf
  generalize BlockBuilder.ofEntries interval es = b at hr hl hrec ⊢
  have himg := parseBlock_whole b.buffer hr
  have hlen : b.buffer.length < 2^63 := by
    rw [BlockBuilder.finish,blockImage_length] at hl
    omega
  have hpath := hrec.path (p:=0) (q:=[]) hlen (by simp)
  rw [Nat.zero_add] at hpath
  refine ⟨_,himg.1,?_⟩
  rw [forEachEntry,himg.2]
  exact Cursor.walk_path_end hpath (by omega)

/-- A value of 2^32 bytes is recorded with the length zero, and its bytes follow the record. -/
theorem BlockBuilder.append_huge (b : BlockBuilder) (key : Bytes) {value : Bytes}
    (hv : value.length = 2^32) :
    (b.append (key,value)).buffer = (b.append (key,[])).buffer ++ value := by
  have hzero : UInt32.ofNat value.length = UInt32.ofNat ([] : Bytes).length := by
    rw [hv]
    rfl
  simp only [append,recordBytes,hzero,List.append_assoc,List.nil_append]

theorem BlockBuilder.foldl_append_extends (b : BlockBuilder) (es : List Entry) :
    ∃ more, (es.foldl append b).buffer = b.buffer ++ more := by
  induction es generalizing b with
  | nil => exact ⟨[],(List.append_nil _).symm⟩
  | cons e es ih =>
    obtain ⟨more,hm⟩ := ih (b.append e)
    exact ⟨_,by rw [List.foldl_cons,hm,append,List.append_assoc]⟩

theorem readEntry_refused {data last rest : Bytes} {pos : Nat} {a b c : UInt8}
    (hd : data.drop pos = a :: b :: c :: rest) (ha : a.toNat < 128) (hb : b.toNat < 128)
    (hc : c.toNat < 128) (hlast : last.length < a.toNat) :
    readEntry data last pos = .error (.err "corrupt entry: shared_bytes exceeds last key length") := by
  have hcode : ∀ x : UInt8, x.toNat < 128 → Varint32 [x] x.toNat :=
    fun x hx => ⟨by omega,by simp,_,.last hx,by omega⟩
  have hd₁ : data.drop pos = [a] ++ (b :: c :: rest) := hd
  have hd₂ : data.drop (pos+1) = [b] ++ (c :: rest) := drop_add_length hd₁
  have hd₃ : data.drop (pos+1+1) = [c] ++ rest := drop_add_length hd₂
  have hshared : (UInt32.ofNat a.toNat).toNat > last.length := by
    rw [toNat_ofNat32 (hcode a ha).1]
    exact hlast
  simp only [readEntry,readVarint32_code (hcode a ha) hd₁,ok_bind,List.length_singleton,
    readVarint32_code (hcode b hb) hd₂,readVarint32_code (hcode c hc) hd₃,hshared,↓reduceIte,
    throw_eq_error,error_bind]

theorem BlockBuilder.ofEntries_huge {interval : Nat} {pre : List Entry} {key value : Bytes}
    (hf : ∀ e ∈ pre, Fits e) (hk : key.length < 2^32) (hv : value.length = 2^32)
    (post : List Entry) :
    ∃ head more, (ofEntries interval (pre ++ (key,value) :: post)).buffer =
      head ++ (value ++ more) ∧ Records [] head (pre ++ [(key,[])]) key := by
  have hhead := ofEntries_records interval (pre ++ [(key,[])]) (by
    intro e he
    rcases List.mem_append.mp he with he | he
    · exact hf e he
    · rw [List.mem_singleton.mp he]
      exact ⟨hk,Nat.two_pow_pos 32⟩)
  rw [ofEntries_snoc] at hhead
  obtain ⟨more,hm⟩ := ((ofEntries interval pre).append (key,value)).foldl_append_extends post
  refine ⟨_,more,?_,hhead⟩
  rw [← List.append_assoc,← append_huge _ key hv,← hm,ofEntries,List.foldl_append]
  rfl

theorem forEachEntry_huge {interval : Nat} {pre post : List Entry} {key value rest : Bytes}
    {a b c : UInt8} (hf : ∀ e ∈ pre, Fits e) (hk : key.length < a.toNat)
    (hv : value.length = 2^32) (hvalue : value = a :: b :: c :: rest) (ha : a.toNat < 128)
    (hb : b.toNat < 128) (hc : c.toNat < 128) {es : List Entry}
    (hes : es = pre ++ (key,value) :: post)
    (hr : (BlockBuilder.ofEntries interval es).restarts.length < 2^32)
    (hl : (BlockBuilder.ofEntries interval es).finish.length < 2^63) :
    ∃ parsed, parseBlock (BlockBuilder.ofEntries interval es).finish = .ok parsed ∧
      (forEachEntry parsed).2 =
        .error (.err "corrupt entry: shared_bytes exceeds last key length") := by
  obtain ⟨head,more,hmore,hhead⟩ := BlockBuilder.ofEntries_huge hf
    (Nat.lt_trans hk (by omega)) hv post
  rw [← hes] at hmore
  generalize BlockBuilder.ofEntries interval es = builder at hr hl hmore ⊢
  have himg := parseBlock_whole builder.buffer hr
  have hlen : builder.buffer.length < 2^63 := by
    rw [BlockBuilder.finish,blockImage_length] at hl
    omega
  have hstart : builder.buffer.drop 0 = head ++ (value ++ more) := hmore
  have hpath := hhead.path hlen hstart
  rw [Nat.zero_add] at hpath
  have hdrop : builder.buffer.drop head.length = a :: b :: c :: (rest ++ more) := by
    rw [hmore,List.drop_left,hvalue]
    rfl
  have hrefuse := readEntry_refused hdrop ha hb hc hk
  have hlt : head.length < builder.buffer.length := by
    rw [hmore,List.length_append,List.length_append,hv]
    omega
  refine ⟨_,himg.1,?_⟩
  rw [forEachEntry,himg.2]
  obtain ⟨fuel,hfuel,hw⟩ := Cursor.walk_path Fault.outOfFuel hpath (Nat.le_of_lt hlt)
    (Nat.le_refl _)
  simp only
  obtain ⟨fuel,rfl⟩ := Nat.exists_eq_succ_of_ne_zero (show fuel ≠ 0 by omega)
  rw [Nat.sub_zero] at hw
  rw [hw,Cursor.walk_error hlt hrefuse]

def putVarsigned64 (v : Int64) : Bytes :=
  putVarint64 ((v <<< 1) ^^^ (v >>> 63)).toUInt64

/-- `a - b` on `i64`. -/
def checkedSubI64 (a b : Int64) : Exec Int64 :=
  if -2^63 ≤ a.toInt-b.toInt ∧ a.toInt-b.toInt < 2^63 then .ok (a-b) else .error .overflow

structure IndexBlockBuilder where
  restartInterval : Nat
  buffer : Bytes
  restarts : List UInt32
  lastKey : Bytes
  lastHandle : Option BlockHandle
  counter : Nat
  deriving Repr

def indexKeyBytes (shared : Nat) (keyDelta : Bytes) : Bytes :=
  putVarint32 (UInt32.ofNat shared) ++ putVarint32 (UInt32.ofNat keyDelta.length) ++ keyDelta

namespace IndexBlockBuilder

def new (restartInterval : Nat) : Exec IndexBlockBuilder := do
  require (restartInterval ≥ 1)
  pure ⟨restartInterval,[],[0],[],none,0⟩

def add (b : IndexBlockBuilder) (key : Bytes) (handle : BlockHandle) :
    Exec IndexBlockBuilder := do
  let atRestart := b.counter ≥ b.restartInterval
  let shared := if atRestart then 0 else sharedPrefixLen b.lastKey key
  let restarts := if atRestart then b.restarts ++ [UInt32.ofNat b.buffer.length] else b.restarts
  let counter := if atRestart then 0 else b.counter
  let handleBytes ←
    if atRestart ∨ shared = 0 then
      pure (putVarint64 handle.offset ++ putVarint64 handle.size)
    else do
      let prev ← expect b.lastHandle "delta encode with no previous handle"
      let delta ← checkedSubI64 handle.size.toInt64 prev.size.toInt64
      pure (putVarsigned64 delta)
  pure { b with
    buffer := b.buffer ++ indexKeyBytes shared (key.drop shared) ++ handleBytes
    restarts
    lastKey := key
    lastHandle := some handle
    counter := counter+1 }

def finish (b : IndexBlockBuilder) : Bytes := blockImage b.buffer b.restarts

end IndexBlockBuilder

def indexRecord (e : Bytes × BlockHandle) : Bytes :=
  indexKeyBytes 0 e.1 ++ (putVarint64 e.2.offset ++ putVarint64 e.2.size)

theorem readIndexEntry_key (pre post last keyDelta : Bytes) (shared : Nat)
    (prev : Option BlockHandle) (restartOffsets : List Nat) (hs : shared ≤ last.length)
    (hs' : shared < 2^32) (hk : keyDelta.length < 2^32)
    (hl : (pre ++ indexKeyBytes shared keyDelta ++ post).length < 2^63) :
    readIndexEntry (pre ++ indexKeyBytes shared keyDelta ++ post) restartOffsets (last,prev)
        pre.length = (do
      let (handle,pos) ← readHandle (pre ++ indexKeyBytes shared keyDelta ++ post)
        (restartOffsets.contains pre.length || decide (shared = 0)) prev
        (pre.length+(indexKeyBytes shared keyDelta).length)
      pure ((last.take shared ++ keyDelta,handle),(last.take shared ++ keyDelta,some handle),
        pos)) := by
  generalize ha : putVarint32 (UInt32.ofNat shared) = a
  generalize hb : putVarint32 (UInt32.ofNat keyDelta.length) = b
  have hr : indexKeyBytes shared keyDelta = a ++ b ++ keyDelta := by
    simp only [indexKeyBytes,ha,hb]
  rw [hr] at hl ⊢
  generalize hdata : pre ++ (a ++ b ++ keyDelta) ++ post = data at hl ⊢
  have hlen : data.length = pre.length+a.length+b.length+keyDelta.length+post.length := by
    rw [← hdata]
    simp only [List.length_append]
    omega
  have h₁ := readVarint32_at (d:=data) (p:=pre) (t:=b ++ keyDelta ++ post)
    (UInt32.ofNat shared) "truncated index entry: shared_bytes" (by rw [← hdata,ha]; simp) rfl
  have h₂ := readVarint32_at (d:=data) (p:=pre ++ a) (t:=keyDelta ++ post)
    (n:=pre.length+a.length) (UInt32.ofNat keyDelta.length)
    "truncated index entry: non_shared_bytes" (by rw [← hdata,hb]; simp) (by simp)
  have h₃ := getRange_at (d:=data) (p:=pre ++ a ++ b) (m:=keyDelta) (q:=post)
    (a:=pre.length+a.length+b.length) (by rw [← hdata]; simp) (by simp; omega) rfl
  rw [ha] at h₁
  rw [hb] at h₂
  have hn : ¬ shared > last.length := Nat.not_lt.mpr hs
  have hfull : (!decide (UInt32.ofNat shared ≠ 0)) = decide (shared = 0) := by
    have hz : UInt32.ofNat shared = 0 ↔ shared = 0 := by
      rw [← UInt32.toNat_inj,toNat_ofNat32 hs']
      rfl
    simp [hz]
  have hend : pre.length+(a ++ b ++ keyDelta).length =
      pre.length+a.length+b.length+keyDelta.length := by
    simp only [List.length_append]
    omega
  simp only [readIndexEntry,h₁,ok_bind,h₂,toNat_ofNat32 hs',toNat_ofNat32 hk,hn,↓reduceIte,
    pure_eq_ok]
  rw [checkedAdd_of_lt (by omega),ok_bind,h₃]
  simp only [okOr,ok_bind,hfull,hend]

theorem readHandle_full (pre post : Bytes) (handle : BlockHandle) (prev : Option BlockHandle) :
    readHandle (pre ++ (putVarint64 handle.offset ++ putVarint64 handle.size) ++ post) true prev
        pre.length =
      .ok (handle,pre.length+(putVarint64 handle.offset ++ putVarint64 handle.size).length) := by
  generalize hd : pre ++ (putVarint64 handle.offset ++ putVarint64 handle.size) ++ post = data
  have h₁ := readVarint64_at (d:=data) (p:=pre) (t:=putVarint64 handle.size ++ post)
    handle.offset "truncated index value: offset" (by rw [← hd]; simp) rfl
  have h₂ := readVarint64_at (d:=data) (p:=pre ++ putVarint64 handle.offset) (t:=post)
    (n:=pre.length+(putVarint64 handle.offset).length) handle.size
    "truncated index value: size" (by rw [← hd]; simp) (by simp)
  simp only [readHandle,↓reduceIte,h₁,ok_bind,h₂,pure_eq_ok,List.length_append,Nat.add_assoc]

theorem readIndexEntry_record (pre post : Bytes) (e : Bytes × BlockHandle)
    (restartOffsets : List Nat) (s : Bytes × Option BlockHandle) (hk : e.1.length < 2^32)
    (hl : (pre ++ indexRecord e ++ post).length < 2^63) :
    readIndexEntry (pre ++ indexRecord e ++ post) restartOffsets s pre.length =
      .ok (e,(e.1,some e.2),pre.length+(indexRecord e).length) := by
  have hbytes : pre ++ indexRecord e ++ post = pre ++ indexKeyBytes 0 e.1 ++
      (putVarint64 e.2.offset ++ putVarint64 e.2.size ++ post) := by
    simp only [indexRecord,List.append_assoc]
  have hkey := readIndexEntry_key pre (putVarint64 e.2.offset ++ putVarint64 e.2.size ++ post)
    s.1 e.1 0 s.2 restartOffsets (Nat.zero_le _) (by decide) hk (by rw [← hbytes]; exact hl)
  have hhandle := readHandle_full (pre ++ indexKeyBytes 0 e.1) post e.2 s.2
  rw [List.append_assoc (pre ++ indexKeyBytes 0 e.1),List.length_append] at hhandle
  rw [hbytes,hkey]
  simp only [decide_true,Bool.or_true,hhandle,ok_bind,pure_eq_ok,List.take_zero,List.nil_append,
    indexRecord,List.length_append,Nat.add_assoc]

theorem indexRecord_length_pos (e : Bytes × BlockHandle) : 1 ≤ (indexRecord e).length := by
  have h := (putVarint64_length e.2.size).1
  simp only [indexRecord,List.length_append]
  omega

theorem indexRecords_path (hs : List (Bytes × BlockHandle)) (hk : ∀ e ∈ hs, e.1.length < 2^32)
    (pre post : Bytes) (restartOffsets : List Nat) (s : Bytes × Option BlockHandle)
    (hl : (pre ++ hs.flatMap indexRecord ++ post).length < 2^63) :
    ∃ s', Cursor.Path (readIndexEntry (pre ++ hs.flatMap indexRecord ++ post) restartOffsets) s
      pre.length hs s' (pre.length+(hs.flatMap indexRecord).length) := by
  induction hs generalizing pre s with
  | nil => exact ⟨s,.nil⟩
  | cons e hs ih =>
    have hpos := indexRecord_length_pos e
    have hbytes : pre ++ (e :: hs).flatMap indexRecord ++ post =
        pre ++ indexRecord e ++ (hs.flatMap indexRecord ++ post) := by
      simp only [List.flatMap_cons,List.append_assoc]
    have hbytes' : pre ++ (e :: hs).flatMap indexRecord ++ post =
        (pre ++ indexRecord e) ++ hs.flatMap indexRecord ++ post := by
      simp only [List.flatMap_cons,List.append_assoc]
    have hread := readIndexEntry_record pre (hs.flatMap indexRecord ++ post) e restartOffsets s
      (hk e (by simp)) (by rw [← hbytes]; exact hl)
    obtain ⟨s',hrest⟩ := ih (fun x hx => hk x (by simp [hx])) (pre ++ indexRecord e)
      (e.1,some e.2) (by rw [← hbytes']; exact hl)
    refine ⟨s',.cons (by rw [hbytes]; exact hread) (by omega) ?_⟩
    rw [hbytes']
    simpa only [List.length_append,List.flatMap_cons,Nat.add_assoc] using hrest

/-- A builder with a restart at every entry, holding the index entries `hs`. -/
structure IndexBlockBuilder.Lists (b : IndexBlockBuilder) (hs : List (Bytes × BlockHandle)) :
    Prop where
  interval : b.restartInterval = 1
  buffer : b.buffer = hs.flatMap indexRecord
  restarts_head : b.restarts.head? = some 0
  restarts_length : b.restarts.length = max 1 hs.length
  counter : b.counter = min 1 hs.length
  lastKey : hs = [] → b.lastKey = []

theorem IndexBlockBuilder.new_lists : ∃ b, new 1 = .ok b ∧ b.Lists [] :=
  ⟨_,rfl,rfl,rfl,rfl,rfl,rfl,fun _ => rfl⟩

theorem IndexBlockBuilder.Lists.add {b : IndexBlockBuilder} {hs : List (Bytes × BlockHandle)}
    (h : b.Lists hs) (key : Bytes) (handle : BlockHandle) :
    ∃ b', b.add key handle = .ok b' ∧ b'.Lists (hs ++ [(key,handle)]) := by
  cases hs with
  | nil =>
    have hc : b.counter = 0 := by simpa using h.counter
    have hr : ¬ b.counter ≥ b.restartInterval := by rw [hc,h.interval]; omega
    have hs0 : sharedPrefixLen b.lastKey key = 0 := by rw [h.lastKey rfl]; rfl
    have hadd : b.add key handle = .ok { b with
        buffer := b.buffer ++ indexRecord (key,handle)
        lastKey := key
        lastHandle := some handle
        counter := 1 } := by
      simp only [IndexBlockBuilder.add,hr,↓reduceIte,hs0,or_true,pure_eq_ok,ok_bind,
        List.drop_zero,indexRecord,List.append_assoc]
      rw [hc]
    exact ⟨_,hadd,h.interval,by simp [h.buffer],h.restarts_head,
      by simpa using h.restarts_length,rfl,by simp⟩
  | cons e hs =>
    have hr : b.counter ≥ b.restartInterval := by rw [h.counter,h.interval]; simp
    have hadd : b.add key handle = .ok { b with
        buffer := b.buffer ++ indexRecord (key,handle)
        restarts := b.restarts ++ [UInt32.ofNat b.buffer.length]
        lastKey := key
        lastHandle := some handle
        counter := 1 } := by
      simp only [IndexBlockBuilder.add,hr,↓reduceIte,true_or,pure_eq_ok,ok_bind,
        List.drop_zero,indexRecord,List.append_assoc,Nat.zero_add]
    refine ⟨_,hadd,h.interval,by simp [h.buffer],by simp [h.restarts_head],?_,by simp,by simp⟩
    have hl := h.restarts_length
    simp only [List.length_append,List.length_cons,List.length_nil] at hl ⊢
    omega

def strayEntry : Bytes × BlockHandle := ([],⟨0,0⟩)

theorem strayEntry_record : indexRecord strayEntry = leBytes 4 (0 : UInt32).toNat := by decide

/-- What is in front of the restart array when the reader finds it: below 2^32 entries the
entries; from there on the count in the last four bytes is too small, and the first restart
offset comes out as one more entry. -/
theorem IndexBlockBuilder.Lists.data {b : IndexBlockBuilder} {hs : List (Bytes × BlockHandle)}
    (h : b.Lists hs) :
    ∃ parsed data, parseBlock b.finish = .ok parsed ∧ parsed.data = .ok data ∧
      (hs.length < 2^32 → data = hs.flatMap indexRecord) ∧
      (2^32 ≤ hs.length → ∃ rest, data = (hs ++ [strayEntry]).flatMap indexRecord ++ rest) ∧
      data.length ≤ b.finish.length := by
  have hlen := blockImage_length b.buffer b.restarts
  have hrl := h.restarts_length
  by_cases hlt : hs.length < 2^32
  · obtain ⟨hp,hd⟩ := parseBlock_whole b.buffer (show b.restarts.length < 2^32 by omega)
    refine ⟨_,_,hp,hd,fun _ => h.buffer,fun hge => absurd hge (by omega),?_⟩
    rw [finish]
    omega
  · have hcut : b.restarts.length-b.restarts.length%2^32 ≤ b.restarts.length := Nat.sub_le _ _
    generalize hf : b.restarts.take (b.restarts.length-b.restarts.length%2^32) = front
    generalize hb : b.restarts.drop (b.restarts.length-b.restarts.length%2^32) = back
    have hsplit : b.restarts = front ++ back := by rw [← hf,← hb,List.take_append_drop]
    have hfl : front.length = b.restarts.length-b.restarts.length%2^32 := by
      rw [← hf,List.length_take]
      omega
    have hbl : back.length = (front ++ back).length%2^32 := by
      rw [← hsplit,← hb,List.length_drop]
      have := Nat.mod_le b.restarts.length (2^32)
      omega
    obtain ⟨hp,hd⟩ := parseBlock_image b.buffer front back hbl
    rw [← hsplit] at hp hd
    have hne : front ≠ [] := by
      intro hnil
      rw [hnil,List.length_nil] at hfl
      omega
    obtain ⟨r,rs,rfl⟩ := List.exists_cons_of_ne_nil hne
    have hr : r = 0 := by
      have hh := h.restarts_head
      rw [hsplit] at hh
      simpa using hh
    subst hr
    refine ⟨_,_,hp,hd,fun hc => absurd hc hlt,fun _ => ?_,?_⟩
    · refine ⟨rs.flatMap (fun r => leBytes 4 r.toNat),?_⟩
      simp only [h.buffer,List.flatMap_append,List.flatMap_cons,List.flatMap_nil,
        List.append_nil,strayEntry_record,List.append_assoc]
    · have hfr := flatMap_leBytes_length (0 :: rs)
      have hsl := congrArg List.length hsplit
      rw [List.length_append] at hsl
      rw [finish,List.length_append]
      omega

/-- An index block of fewer than 2^32 entries reads back; a longer one yields, if nothing
worse, the handle of an empty block at offset 0 after its own entries. -/
theorem forEachIndexEntry_finish {b : IndexBlockBuilder} {hs : List (Bytes × BlockHandle)}
    (h : b.Lists hs) (hk : ∀ e ∈ hs, e.1.length < 2^32) (hl : b.finish.length < 2^63) :
    ∃ parsed, parseBlock b.finish = .ok parsed ∧
      (hs.length < 2^32 → forEachIndexEntry parsed = (hs,.ok ())) ∧
      (2^32 ≤ hs.length → ∃ more outcome,
        forEachIndexEntry parsed = (hs ++ strayEntry :: more,outcome)) := by
  obtain ⟨parsed,data,hp,hd,hlow,hhigh,hdl⟩ := h.data
  refine ⟨parsed,hp,fun hlt => ?_,fun hge => ?_⟩
  · obtain ⟨s,hpath⟩ := indexRecords_path hs hk [] [] (parsed.restarts.map UInt32.toNat)
      ([],none) (by
        rw [List.nil_append,List.append_nil,← hlow hlt]
        omega)
    simp only [List.nil_append,List.append_nil,List.length_nil,Nat.zero_add,← hlow hlt] at hpath
    rw [forEachIndexEntry,hd]
    exact Cursor.walk_path_end hpath (by omega)
  · obtain ⟨rest,hrest⟩ := hhigh hge
    have hk' : ∀ e ∈ hs ++ [strayEntry], e.1.length < 2^32 := by
      intro e he
      rcases List.mem_append.mp he with he | he
      · exact hk e he
      · rw [List.mem_singleton.mp he]
        decide
    obtain ⟨s,hpath⟩ := indexRecords_path (hs ++ [strayEntry]) hk' [] rest
      (parsed.restarts.map UInt32.toNat) ([],none) (by
        rw [List.nil_append,← hrest]; omega)
    simp only [List.nil_append,List.length_nil,Nat.zero_add,← hrest] at hpath
    have hend : ((hs ++ [strayEntry]).flatMap indexRecord).length ≤ data.length := by
      rw [hrest,List.length_append]
      omega
    obtain ⟨fuel,-,hw⟩ := Cursor.walk_path Fault.outOfFuel hpath hend
      (Nat.sub_le data.length 0)
    rw [forEachIndexEntry,hd]
    simp only
    rw [hw,List.append_assoc,List.singleton_append]
    exact ⟨_,_,rfl⟩

end SstCompactor
