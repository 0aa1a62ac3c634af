import SstCompactor.Compaction.Jobs
import SstCompactor.Oracle

/-!
The differential test: random sources, compacted and decoded again, against the reference
implementation. The random generator is arbitrary, but for the ranges its numbers are in.
-/

set_option autoImplicit false

namespace SstCompactor
open FixedWidth Oracle

/-- `Result::expect`: an `Err` becomes a panic. -/
def expectOk {α : Type} (r : Exec α) (msg : String) : Exec α :=
  match r with
  | .error (.err e) => .error (.expect (msg ++ ": " ++ e.quote))
  | r => r

theorem expectOk_ok {α : Type} {r : Exec α} {a : α} (h : r = .ok a) (msg : String) :
    expectOk r msg = .ok a := by
  rw [h]
  rfl

namespace Fuzzer
variable (X : Crates)

def fetchBlock (bytes : Bytes) (ft : Footer) (msg : String) (handle : BlockHandle) :
    Exec Bytes := do
  let len ← blockReadLen handle
  let stop ← checkedAdd 64 handle.offset.toNat len
  let rawWithTrailer ← slice bytes handle.offset.toNat stop
  expectOk (decodeBlockContents X rawWithTrailer handle ft.checksumType ft.baseContextChecksum) msg

/-- The closure over the metaindex: of several entries of that name the last. -/
def indexHandle (found : Option BlockHandle) (e : Entry) : Exec (Option BlockHandle) :=
  if e.1 = strBytes "rocksdb.index" then do
    let (offset,pos) := getVarint64 e.2 0
    let offset ← expect offset "called `Option::unwrap()` on a `None` value"
    let size ← expect (getVarint64 e.2 pos).1 "called `Option::unwrap()` on a `None` value"
    pure (some ⟨offset,size⟩)
  else pure found

def dataEntries (fetch : BlockHandle → Exec Bytes) :
    List BlockHandle → Exec (List (Bytes × Bytes))
  | [] => pure []
  | handle :: handles => do
      let raw ← fetch handle
      let parsed ← expectOk (parseBlock raw) "data block should parse"
      let (listed,outcome) := forEachEntry parsed
      let out ← listed.mapM (fun e => do
        let ik ← expectOk (split e.1) "valid internal key"
        pure (ik.userKey,e.2))
      expectOk outcome "data block iteration should succeed"
      let rest ← dataEntries fetch handles
      pure (out ++ rest)

def comparePairs (a b : Bytes × Bytes) : Ordering := (compare a.1 b.1).then (compare a.2 b.2)

def decodeSstEntries (bytes : Bytes) : Exec (List (Bytes × Bytes)) := do
  let tailStart ← checkedSub bytes.length footerTailLen
  let tail ← slice bytes tailStart bytes.length
  let ft ← expectOk (decodeFooter X tail (UInt64.ofNat bytes.length)) "footer should decode"
  let metaindexRaw ← fetchBlock X bytes ft "metaindex should decode" ft.metaindexHandle
  let metaindex ← expectOk (parseBlock metaindexRaw) "metaindex should parse"
  let (listed,outcome) := forEachEntry metaindex
  let found ← listed.foldlM indexHandle none
  expectOk outcome "metaindex iteration should succeed"
  let handle ← expect found "index handle must be present"
  let indexRaw ← fetchBlock X bytes ft "index block should decode" handle
  let index ← expectOk (parseBlock indexRaw) "index block should parse"
  let handles ← expectOk (dataHandles index) "index iteration should succeed"
  let out ← dataEntries (fetchBlock X bytes ft "data block should decode") handles
  pure (out.mergeSort (fun a b => comparePairs a b != .gt))

def runOptions : CompactionOptions := ⟨{ baseContextChecksum := 0x13579BDF }⟩

def runCompactor (perSource : List (List Entry)) : Exec (List (Bytes × Bytes)) := do
  let sources := perSource.map ArenaSource.ofEntries
  let sstBytes ← expectOk (compact X sources runOptions) "compaction should succeed"
  decodeSstEntries X sstBytes

variable {X}

theorem fetchBlock_ok {bytes raw : Bytes} {ft : Footer} {handle : BlockHandle}
    (h : decodeBlockInMemory X bytes ft handle = .ok raw) (msg : String) :
    fetchBlock X bytes ft msg handle = .ok raw := by
  obtain ⟨len,hlen,h⟩ := bind_eq_ok h
  obtain ⟨stop,hstop,h⟩ := bind_eq_ok h
  obtain ⟨buf,hbuf,h⟩ := bind_eq_ok h
  have hslice : slice bytes handle.offset.toNat stop = .ok buf := by
    rw [slice,okOr_eq_ok hbuf]
  rw [fetchBlock,hlen,ok_bind,hstop,ok_bind,hslice,ok_bind,expectOk_ok h]

theorem indexHandle_meta (props index : BlockHandle) :
    (metaEntries props index).foldlM indexHandle none = .ok (some index) := by
  have h₁ := getVarint64_put [] (putVarint64 index.size) index.offset
  have h₂ := getVarint64_put (putVarint64 index.offset) [] index.size
  simp only [List.nil_append,List.append_nil,List.length_nil,Nat.zero_add] at h₁ h₂
  have hi : strBytes indexBlockName = strBytes "rocksdb.index" := rfl
  have hp : ¬ strBytes propertiesBlockName = strBytes "rocksdb.index" := by decide
  simp [metaEntries,metaValue,indexHandle,hi,hp,h₁,h₂,expect]

theorem mapM_split {es : List Entry} (hw : ∀ e ∈ es, WellFormed e.1) :
    es.mapM (fun e => do
      let ik ← expectOk (split e.1) "valid internal key"
      pure (ik.userKey,e.2)) = .ok (es.map stripped) :=
  mapM_ok (fun e he => by
    rw [expectOk_ok (split_ok (hw e he)),ok_bind]
    rfl)

theorem dataEntries_visited {fetch fetch' : BlockHandle → Exec Bytes}
    (hf : ∀ h raw, fetch h = .ok raw → fetch' h = .ok raw) (handles : List BlockHandle)
    {es : List Entry} (hv : visitBlocks fetch handles = (es,.ok ()))
    (hw : ∀ e ∈ es, WellFormed e.1) :
    dataEntries fetch' handles = .ok (es.map stripped) := by
  induction handles generalizing es with
  | nil =>
    cases hv
    rfl
  | cons handle handles ih =>
    rw [visitBlocks] at hv
    split at hv
    · cases hv
    · rename_i parsed hparsed
      obtain ⟨raw,hraw,hparsed⟩ := bind_eq_ok hparsed
      split at hv
      · cases hv
      · rename_i listed hlisted
        obtain ⟨rfl,hrest⟩ := Prod.mk.inj hv
        have hvisit : visitBlocks fetch handles = ((visitBlocks fetch handles).1,.ok ()) :=
          Prod.ext rfl hrest
        have htail := ih hvisit (fun e he => hw e (List.mem_append_right _ he))
        have hhead := mapM_split (fun e he => hw e (List.mem_append_left _ he))
        rw [dataEntries,hf handle raw hraw,ok_bind,expectOk_ok hparsed,ok_bind,hlisted]
        simp only [hhead,ok_bind,expectOk_ok rfl,htail,List.map_append]
        rfl

theorem decodeSstEntries_image {opts : SstBuilderOptions} {es : List Entry}
    {i : Image X opts es} (hi : i.Written X opts) (hl : i.bytes.length < 2^63)
    (hf : ∀ e ∈ es, Fits e) (hw : ∀ e ∈ es, WellFormed e.1) (hn : dataBlockCount es < 2^32) :
    decodeSstEntries X i.bytes =
      .ok ((es.map stripped).mergeSort (fun a b => comparePairs a b != .gt)) := by
  have hsub : checkedSub i.bytes.length footerTailLen = .ok (i.bytes.length-footerTailLen) := by
    refine checkedSub_of_le ?_
    rw [i.lengths.2.2.2,i.footer_length hi]
    exact Nat.le_add_left _ _
  have hs := decodeBlockInMemory_serves X opts hl ⟨blockBasedTableMagic,7,
      opts.checksumType,i.metaed.2,none,5,opts.baseContextChecksum⟩ rfl rfl
  obtain ⟨metaindex,hm,hread⟩ := i.meta_reads
  obtain ⟨index,hidx,hlow,-⟩ := i.index_reads hl hf hs
  obtain ⟨handles,hh,hv⟩ := hlow hn
  have hdata := dataEntries_visited
    (fun h raw hraw => fetchBlock_ok hraw "data block should decode") handles hv hw
  rw [decodeSstEntries,hsub,ok_bind,i.tail_slice hi,ok_bind,expectOk_ok (i.footer_reads hl hi),
    ok_bind,fetchBlock_ok (i.fetch_meta hs),ok_bind,expectOk_ok hm,ok_bind,hread]
  simp only [indexHandle_meta,expectOk_ok rfl,expect,ok_bind]
  rw [fetchBlock_ok (i.fetch_index hs),ok_bind,expectOk_ok hidx,ok_bind,expectOk_ok hh,ok_bind,
    hdata,ok_bind]
  rfl

theorem mergeSort_increasing {xs : List (Bytes × Bytes)}
    (h : xs.Pairwise (fun a b => compare a.1 b.1 = .lt)) :
    xs.mergeSort (fun a b => comparePairs a b != .gt) = xs := by
  refine List.mergeSort_of_pairwise (h.imp (fun {a b} hab => ?_))
  simp [comparePairs,hab]

/-- The test compares like with like: on sources the reference implementation is made for, both
sides return, and return the same. -/
theorem runCompactor_eq (X : Crates) {ls : List (List Entry)} (hsort : ∀ l ∈ ls, SortedEntries l)
    (hwf : ∀ e ∈ ls.flatten, WellFormed e.1) (hseq : UniqueSequences ls.flatten)
    (hcap : totalBytes ls.flatten < 2^32) : ∃ out,
      runCompactor X ls = .ok out ∧ naiveCompact ls = .ok out := by
  refine ⟨_,?_,naiveCompact_eq hwf hseq⟩
  have hin : Inputs (ls.map ArenaSource.ofEntries) ls :=
    Inputs.ofLists (fun l hl => Nat.lt_of_le_of_lt
      (totalBytes_sublist (List.sublist_flatten_of_mem hl)) hcap) hsort hwf hseq.nodup
  have hord := mergedEntries_ordered hin.distinct
  have hsub : (bottommostKept (mergedEntries ls)).Sublist (mergedEntries ls) := List.filter_sublist
  have hle := totalBytes_sublist hsub
  rw [totalBytes_perm (mergedEntries_perm ls)] at hle
  have hcompact : compact X (ls.map ArenaSource.ofEntries) runOptions =
      buildSst X runOptions.sstBuilder (bottommostKept (mergedEntries ls)) :=
    hin.provided_eq X runOptions .bottommost
  have huser := stripped_increasing (hord.sublist hsub)
    (bottommostKept_userKeys (hin.distinct.perm (mergedEntries_perm ls).symm))
  have hword := (hord.sublist hsub).wf
  generalize bottommostKept (mergedEntries ls) = es at *
  obtain ⟨i,hb,hi⟩ := buildSst_image X runOptions.sstBuilder (writtenEntries_none _ rfl es)
  have hlen := i.bytes_length_le X _ hi
  have hcomparator : (strBytes runOptions.sstBuilder.comparatorName).length = 26 := by decide
  have hfamily : (strBytes runOptions.sstBuilder.columnFamilyName).length = 7 := by decide
  have hcount := length_le_totalBytes hword
  have hblocks := dataBlockCount_le es
  rw [runCompactor,expectOk_ok (hcompact.trans hb),ok_bind,
    decodeSstEntries_image hi (by omega) (fits_of_totalBytes (by omega)) hword (by omega),
    mergeSort_increasing huser]

/-- What is used of `rand::Rng`: numbers from a range that is not empty, and coin tosses. -/
structure Rng (ρ : Type) where
  range : ρ → (low high : Nat) → Nat × ρ
  toss : ρ → Bool × ρ
  range_mem : ∀ r low high, low < high →
    low ≤ (range r low high).1 ∧ (range r low high).1 < high

variable {ρ : Type} (R : Rng ρ)

/-- `gen_range(low..high)`, which asserts that the range is not empty. -/
def Rng.genRange (rng : ρ) (low high : Nat) : Exec (Nat × ρ) := do
  require (low < high)
  pure (R.range rng low high)

def typeValue : UInt8 := 1
def typeDeletion : UInt8 := 0

def makeInternalKey (userKey : String) (seq : Nat) (ty : UInt8) : Bytes :=
  strBytes userKey ++ leBytes 8 (seq <<< 8 ||| ty.toNat)

/-- `key{:06}`. -/
def keyName (i : Nat) : String :=
  "key" ++ String.ofList (List.replicate (6-(Nat.toDigits 10 i).length) '0' ++ Nat.toDigits 10 i)

/-- `value_{}_{}`. -/
def valueText (i seq : Nat) : String := "value_" ++ toString i ++ "_" ++ toString seq

/-- The body of the inner loop: one version of user key `i`, put into a source by lot. -/
def pushVersion (numSources i versions : Nat) (st : List (List Entry) × ρ) (v : Nat) :
    Exec (List (List Entry) × ρ) := do
  let (perSource,rng) := st
  let seq ← checkedSub versions v
  let (deleted,rng) := if v = 0 then R.toss rng else (false,rng)
  let ty := if deleted then typeDeletion else typeValue
  let (src,rng) ← R.genRange rng 0 numSources
  let entries ← index perSource src
  pure (perSource.set src (entries ++ [(makeInternalKey (keyName i) seq ty,
    strBytes (valueText i seq))]),rng)

def pushVersions (numSources : Nat) (st : List (List Entry) × ρ) (i : Nat) :
    Exec (List (List Entry) × ρ) := do
  let (versions,rng) ← R.genRange st.2 1 4
  (List.range versions).foldlM (pushVersion R numSources i versions) (st.1,rng)

/-- The keys have their eight bytes, so that they can be sorted. -/
def generateSources (rng : ρ) (numSources numKeys : Nat) : Exec (List (List Entry) × ρ) := do
  let (perSource,rng) ← (List.range numKeys).foldlM (pushVersions R numSources)
    (List.replicate numSources [],rng)
  pure (perSource.map (fun l => l.mergeSort (fun a b => compareKeys a.1 b.1 != .gt)),rng)

variable (X) in
/-- One round of `compactor_matches_oracle_across_random_inputs`. -/
def trial (rng : ρ) : Exec ρ := do
  let (numSources,rng) ← R.genRange rng 1 13
  let (numKeys,rng) ← R.genRange rng 0 201
  let (perSource,rng) ← generateSources R rng numSources numKeys
  let compactorOut ← runCompactor X perSource
  let oracleOut ← naiveCompact perSource
  require (compactorOut = oracleOut)
  pure rng

theorem strBytes_inj {s t : String} (h : strBytes s = strBytes t) : s = t :=
  String.toByteArray_inj.mp (ByteArray.ext (Array.toList_inj.mp h))

theorem strBytes_append (s t : String) : strBytes (s ++ t) = strBytes s ++ strBytes t := by
  simp [strBytes]

theorem strBytes_ascii {cs : List Char} (h : ∀ c ∈ cs, c.val ≤ 127) :
    (strBytes (String.ofList cs)).length = cs.length := by
  have henc : strBytes (String.ofList cs) = cs.flatMap String.utf8EncodeChar := by
    rw [strBytes,String.toUTF8_eq_toByteArray,String.toByteArray_ofList,List.utf8Encode,
      List.toList_data_toByteArray]
  rw [henc]
  clear henc
  induction cs with
  | nil => rfl
  | cons c cs ih =>
    have hc : c.utf8Size = 1 := Char.utf8Size_eq_one_iff.mpr (h c (by simp))
    have hcs := ih (fun d hd => h d (by simp [hd]))
    rw [List.flatMap_cons,List.length_append,String.length_utf8EncodeChar,hc,hcs,
      List.length_cons,Nat.add_comm]

theorem toDigits_ascii {n : Nat} : ∀ c ∈ Nat.toDigits 10 n, c.val ≤ 127 := by
  intro c hc
  have hd := Nat.isDigit_of_mem_toDigits (by decide) (by decide) hc
  have hn : c.toNat ≤ 57 := (Char.isDigit_iff_toNat.mp hd).2
  exact UInt32.le_iff_toNat_le.mpr (Nat.le_trans hn (by decide))

theorem keyName_inj {i j : Nat} (h : keyName i = keyName j) : i = j := by
  have hvalue : ∀ n, Nat.ofDigitChars 10 (List.replicate (6-(Nat.toDigits 10 n).length) '0' ++
      Nat.toDigits 10 n) 0 = n := by
    intro n
    rw [Nat.ofDigitChars_append,Nat.ofDigitChars_replicate_zero,Nat.mul_zero,
      Nat.ofDigitChars_ten_toDigits]
  have hlist := congrArg String.toList h
  simp only [keyName,String.toList_append,String.toList_ofList] at hlist
  rw [← hvalue i,List.append_cancel_left hlist,hvalue j]

theorem toDigits_length {n : Nat} (h : n < 10^8) : (Nat.toDigits 10 n).length ≤ 8 :=
  (Nat.length_toDigits_le_iff (by decide) (by decide)).mpr h

theorem keyName_length {i : Nat} (h : i < 10^8) : (strBytes (keyName i)).length ≤ 11 := by
  have hl := toDigits_length h
  have hascii : ∀ c ∈ List.replicate (6-(Nat.toDigits 10 i).length) '0' ++ Nat.toDigits 10 i,
      c.val ≤ 127 := by
    intro c hc
    rcases List.mem_append.mp hc with hc | hc
    · rw [List.eq_of_mem_replicate hc]
      decide
    · exact toDigits_ascii c hc
  have hkey : (strBytes "key").length = 3 := by decide
  rw [keyName,strBytes_append,List.length_append,strBytes_ascii hascii,hkey]
  simp only [List.length_append,List.length_replicate]
  omega

theorem valueText_length {i seq : Nat} (hi : i < 10^8) (hs : seq < 10) :
    (strBytes (valueText i seq)).length ≤ 16 := by
  have hl := toDigits_length hi
  have hl' : (Nat.toDigits 10 seq).length ≤ 1 :=
    (Nat.length_toDigits_le_iff (by decide) (by decide)).mpr hs
  have hvalue : (strBytes "value_").length = 6 := by decide
  have hunderscore : (strBytes "_").length = 1 := by decide
  simp only [valueText,strBytes_append,List.length_append,Nat.toString_eq_ofList_toDigits,
    strBytes_ascii toDigits_ascii,hvalue,hunderscore]
  omega

def version (i seq : Nat) (deleted : Bool) : Entry :=
  (makeInternalKey (keyName i) seq (if deleted then typeDeletion else typeValue),
    strBytes (valueText i seq))

theorem version_userKey (i seq : Nat) (deleted : Bool) :
    userKey (version i seq deleted).1 = strBytes (keyName i) :=
  userKey_append _ _ (leBytes_length 8 _)

theorem version_sequence (i : Nat) {seq : Nat} (h : seq ≤ 3) (deleted : Bool) :
    sequence (version i seq deleted).1 = seq := by
  have hp : ∀ ty : Bool, ∀ s ≤ 3, (ofLe (leBytes 8 (s <<< 8 |||
      (if ty then typeDeletion else typeValue).toNat)))/256 = s := by decide
  rw [sequence_eq,version,makeInternalKey,packed_append _ _ (leBytes_length 8 _)]
  exact hp deleted seq h

theorem version_wf (i seq : Nat) (deleted : Bool) : WellFormed (version i seq deleted).1 := by
  simp [WellFormed,version,makeInternalKey]

theorem version_bytes {i seq : Nat} (hi : i < 10^8) (hs : seq ≤ 3) (deleted : Bool) :
    (version i seq deleted).1.length+(version i seq deleted).2.length ≤ 35 := by
  have hk := keyName_length hi
  have hv := valueText_length hi (show seq < 10 by omega)
  simp only [version,makeInternalKey,List.length_append,leBytes_length]
  omega

/-- What the generator has made when the versions of user key `i` above `seq` are done. -/
structure Generated (numSources i seq count : Nat) (perSource : List (List Entry)) : Prop where
  width : perSource.length = numSources
  made : ∀ e ∈ perSource.flatten, ∃ j s deleted, e = version j s deleted ∧ s ≤ 3 ∧
    (j < i ∨ j = i ∧ seq < s)
  unique : UniqueSequences perSource.flatten
  length_le : perSource.flatten.length ≤ count

theorem flatten_set_push {α : Type} {ls : List (List α)} {k : Nat} {l : List α}
    (h : ls[k]? = some l) (e : α) : (ls.set k (l ++ [e])).flatten.Perm (ls.flatten ++ [e]) := by
  induction ls generalizing k with
  | nil => simp at h
  | cons x ls ih =>
    cases k with
    | zero =>
      simp only [List.getElem?_cons_zero,Option.some.injEq] at h
      subst h
      simp only [List.set_cons_zero,List.flatten_cons,List.append_assoc]
      exact List.perm_append_comm.append_left x
    | succ k =>
      simp only [List.set_cons_succ,List.flatten_cons,List.append_assoc]
      exact (ih (by simpa using h)).append_left x

theorem flatten_map_perm {α : Type} {f : List α → List α} (hf : ∀ l, (f l).Perm l)
    (ls : List (List α)) : (ls.map f).flatten.Perm ls.flatten := by
  induction ls with
  | nil => exact List.Perm.refl _
  | cons l ls ih => exact (hf l).append ih

theorem uniqueSequences_perm {es fs : List Entry} (hp : es.Perm fs) :
    UniqueSequences es ↔ UniqueSequences fs :=
  hp.pairwise_iff (fun hab hu hs => hab hu.symm hs.symm)

theorem Generated.push {numSources i seq count k : Nat} {perSource : List (List Entry)}
    {l : List Entry} (h : Generated numSources i (seq+1) count perSource)
    (hk : perSource[k]? = some l) (hseq : seq+1 ≤ 3) (deleted : Bool) :
    Generated numSources i seq (count+1)
      (perSource.set k (l ++ [version i (seq+1) deleted])) := by
  have hp := flatten_set_push hk (version i (seq+1) deleted)
  refine ⟨by rw [List.length_set,h.width],fun e he => ?_,(uniqueSequences_perm hp).mpr ?_,?_⟩
  · rcases List.mem_append.mp (hp.mem_iff.mp he) with he | he
    · obtain ⟨j,s,d,rfl,hs,hj⟩ := h.made e he
      exact ⟨j,s,d,rfl,hs,by omega⟩
    · exact ⟨i,seq+1,deleted,List.mem_singleton.mp he,hseq,.inr ⟨rfl,Nat.lt_succ_self _⟩⟩
  · refine List.pairwise_append.mpr ⟨h.unique,List.pairwise_singleton _ _,fun e he e' he' => ?_⟩
    obtain ⟨j,s,d,rfl,hs,hj⟩ := h.made e he
    rw [List.mem_singleton.mp he',version_userKey,version_userKey,version_sequence j hs,
      version_sequence i hseq]
    intro hkey
    have hij := keyName_inj (strBytes_inj hkey)
    omega
  · rw [hp.length_eq,List.length_append]
    have hle := h.length_le
    simp only [List.length_cons,List.length_nil]
    omega

variable {R}

theorem Rng.genRange_ok {low high : Nat} (h : low < high) (rng : ρ) : ∃ n rng',
    R.genRange rng low high = .ok (n,rng') ∧ low ≤ n ∧ n < high := by
  refine ⟨_,(R.range rng low high).2,?_,R.range_mem rng low high h⟩
  rw [Rng.genRange,require,if_pos (by simpa using h)]
  rfl

theorem pushVersion_generated {numSources i v seq count : Nat} {perSource : List (List Entry)}
    (h : Generated numSources i (seq+1) count perSource) (hn : 0 < numSources)
    (hseq : seq+1 ≤ 3) (rng : ρ) : ∃ perSource' rng',
      pushVersion R numSources i (v+(seq+1)) (perSource,rng) v = .ok (perSource',rng') ∧
      Generated numSources i seq (count+1) perSource' := by
  generalize htoss : (if v = 0 then R.toss rng else (false,rng)) = tossed
  obtain ⟨deleted,rng₁⟩ := tossed
  obtain ⟨src,rng',hsrc,-,hlt⟩ := Rng.genRange_ok (R:=R) hn rng₁
  obtain ⟨l,hl⟩ : ∃ l, perSource[src]? = some l :=
    ⟨_,List.getElem?_eq_getElem (by rw [h.width]; exact hlt)⟩
  refine ⟨_,rng',?_,h.push hl hseq deleted⟩
  have hsub : checkedSub (v+(seq+1)) v = .ok (seq+1) := by
    rw [checkedSub_of_le (Nat.le_add_right _ _),Nat.add_sub_cancel_left]
  simp only [pushVersion,hsub,ok_bind,htoss,hsrc,index_of_getElem? hl,pure_eq_ok]
  rfl

theorem foldlM_pushVersion {numSources i : Nat} (hn : 0 < numSources) (k v count : Nat)
    (perSource : List (List Entry)) (rng : ρ) (h : Generated numSources i k count perSource)
    (hk : k ≤ 3) : ∃ perSource' rng',
      (List.range' v k).foldlM (pushVersion R numSources i (v+k)) (perSource,rng) =
        .ok (perSource',rng') ∧ Generated numSources i 0 (count+k) perSource' := by
  induction k generalizing v count perSource rng with
  | zero => exact ⟨perSource,rng,rfl,h⟩
  | succ k ih =>
    obtain ⟨ps,rng₁,hpush,hgen⟩ := pushVersion_generated (R:=R) (v:=v) h hn hk rng
    obtain ⟨ps',rng',hrest,hgen'⟩ := ih (v+1) (count+1) ps rng₁ hgen (by omega)
    refine ⟨ps',rng',?_,by rwa [Nat.add_assoc,Nat.add_comm 1 k] at hgen'⟩
    rw [List.range'_succ,List.foldlM_cons,hpush,ok_bind,← hrest]
    congr 2
    omega

theorem pushVersions_generated {numSources i count : Nat} {perSource : List (List Entry)}
    (h : Generated numSources i 3 count perSource) (hn : 0 < numSources) (rng : ρ) :
    ∃ perSource' rng',
      pushVersions R numSources (perSource,rng) i = .ok (perSource',rng') ∧
      Generated numSources (i+1) 3 (count+3) perSource' := by
  obtain ⟨versions,rng₁,hrange,-,hlt⟩ := Rng.genRange_ok (R:=R) (show 1 < 4 by decide) rng
  have hstart : Generated numSources i versions count perSource := by
    refine ⟨h.width,fun e he => ?_,h.unique,h.length_le⟩
    obtain ⟨j,s,d,rfl,hs,hj⟩ := h.made e he
    exact ⟨j,s,d,rfl,hs,by omega⟩
  obtain ⟨ps',rng',hfold,hgen⟩ := foldlM_pushVersion (R:=R) hn versions 0 count perSource rng₁
    hstart (by omega)
  rw [Nat.zero_add] at hfold
  refine ⟨ps',rng',?_,hgen.width,fun e he => ?_,hgen.unique,Nat.le_trans hgen.length_le (by omega)⟩
  · simp only [pushVersions,hrange,ok_bind,List.range_eq_range',hfold]
  · obtain ⟨j,s,d,rfl,hs,hj⟩ := hgen.made e he
    exact ⟨j,s,d,rfl,hs,by omega⟩

theorem foldlM_pushVersions {numSources : Nat} (hn : 0 < numSources) (k i : Nat)
    (perSource : List (List Entry)) (rng : ρ) (h : Generated numSources i 3 (3*i) perSource) :
    ∃ perSource' rng',
      (List.range' i k).foldlM (pushVersions R numSources) (perSource,rng) =
        .ok (perSource',rng') ∧ Generated numSources (i+k) 3 (3*(i+k)) perSource' := by
  induction k generalizing i perSource rng with
  | zero => exact ⟨perSource,rng,rfl,h⟩
  | succ k ih =>
    obtain ⟨ps,rng₁,hpush,hgen⟩ := pushVersions_generated (R:=R) h hn rng
    obtain ⟨ps',rng',hrest,hgen'⟩ := ih (i+1) ps rng₁ hgen
    refine ⟨ps',rng',?_,by rwa [Nat.add_assoc,Nat.add_comm 1 k] at hgen'⟩
    rw [List.range'_succ,List.foldlM_cons,hpush,ok_bind,hrest]

theorem Generated.totalBytes_le {numSources i seq count : Nat} {perSource : List (List Entry)}
    (h : Generated numSources i seq count perSource) (hi : i < 10^8) :
    totalBytes perSource.flatten ≤ 35*count := by
  have hle : totalBytes perSource.flatten ≤ perSource.flatten.length*35 := by
    refine List.sum_le_card_nsmul _ 35 (fun n hn => ?_) |>.trans ?_
    · obtain ⟨e,he,rfl⟩ := List.mem_map.mp hn
      obtain ⟨j,s,d,rfl,hs,hj⟩ := h.made e he
      exact version_bytes (by omega) hs d
    · rw [List.length_map]
      exact Nat.le_refl _
  have hlen := h.length_le
  omega

theorem generateSources_spec {numSources numKeys : Nat} (hn : 0 < numSources)
    (hk : numKeys ≤ 2^25) (rng : ρ) : ∃ perSource rng',
      generateSources R rng numSources numKeys = .ok (perSource,rng') ∧
      (∀ l ∈ perSource, SortedEntries l) ∧ (∀ e ∈ perSource.flatten, WellFormed e.1) ∧
      UniqueSequences perSource.flatten ∧ totalBytes perSource.flatten < 2^32 := by
  have hinit : Generated numSources 0 3 (3*0) (List.replicate numSources []) := by
    refine ⟨List.length_replicate,fun e he => ?_,?_,?_⟩ <;> simp_all [UniqueSequences]
  obtain ⟨ps,rng',hfold,hgen⟩ := foldlM_pushVersions (R:=R) hn numKeys 0 _ rng hinit
  rw [Nat.zero_add] at hgen
  have hp : (ps.map (fun l => l.mergeSort (fun a b => compareKeys a.1 b.1 != .gt))).flatten.Perm
      ps.flatten := flatten_map_perm (fun l => List.mergeSort_perm l _) ps
  refine ⟨_,rng',by rw [generateSources,List.range_eq_range',hfold]; rfl,fun l hl => ?_,
    fun e he => ?_,(uniqueSequences_perm hp).mpr hgen.unique,?_⟩
  · obtain ⟨l,-,rfl⟩ := List.mem_map.mp hl
    have hs := mergedEntries_sorted [l]
    simpa [mergedEntries] using hs
  · obtain ⟨j,s,d,rfl,-⟩ := hgen.made e (hp.mem_iff.mp he)
    exact version_wf j s d
  · rw [totalBytes_perm hp]
    have hle := hgen.totalBytes_le (by omega)
    omega

theorem trial_ok (X : Crates) (rng : ρ) : ∃ rng', trial X R rng = .ok rng' := by
  obtain ⟨numSources,rng₁,h₁,hlow,-⟩ := Rng.genRange_ok (R:=R) (show 1 < 13 by decide) rng
  obtain ⟨numKeys,rng₂,h₂,-,hhigh⟩ := Rng.genRange_ok (R:=R) (show 0 < 201 by decide) rng₁
  obtain ⟨perSource,rng₃,h₃,hsort,hwf,hseq,hcap⟩ :=
    generateSources_spec (R:=R) hlow (show numKeys ≤ 2^25 by omega) rng₂
  obtain ⟨out,hrun,horacle⟩ := runCompactor_eq X hsort hwf hseq hcap
  refine ⟨rng₃,?_⟩
  simp only [trial,h₁,ok_bind,h₂,h₃,hrun,horacle,require,decide_true,if_true,pure_eq_ok]

/-- However often the test goes round, and whatever the generator comes up with, it passes. -/
theorem trials_pass (X : Crates) (R : Rng ρ) (trials : Nat) (rng : ρ) : ∃ rng',
    (List.range trials).foldlM (fun rng _ => trial X R rng) rng = .ok rng' := by
  induction trials with
  | zero => exact ⟨rng,rfl⟩
  | succ trials ih =>
    obtain ⟨rng₁,hfold⟩ := ih
    obtain ⟨rng',htrial⟩ := trial_ok (R:=R) X rng₁
    exact ⟨rng',by simp [List.range_succ,hfold,htrial]⟩

end Fuzzer

end SstCompactor
