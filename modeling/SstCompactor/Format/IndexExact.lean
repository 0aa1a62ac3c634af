import SstCompactor.Format.Parser
import SstCompactor.Format.Varsigned

/-!
Index blocks from arbitrary bytes. An index entry is read in two parts: its fields, and the
handle they stand for. The code works the handle out in machine arithmetic; beside it stands
the same reader over the unbounded integers.
-/

set_option autoImplicit false

namespace SstCompactor

inductive IndexValue where
  | whole : BlockHandle → IndexValue
  | delta : BlockHandle → Int64 → IndexValue

def readIndexValue (data : Bytes) (full : Bool) (lastHandle : Option BlockHandle) (pos : Nat) :
    Exec (IndexValue × Nat) := do
  if full then
    let (offset,pos) ← readVarint64 data pos "truncated index value: offset"
    let (size,pos) ← readVarint64 data pos "truncated index value: size"
    pure (.whole ⟨offset,size⟩,pos)
  else
    let prev ← okOr lastHandle "delta-encoded index value with no previous handle"
    let (delta,pos) := getVarsigned64 data pos
    let delta ← okOr delta "truncated index value: size delta"
    pure (.delta prev delta,pos)

/-- `readIndexEntry` up to the arithmetic. -/
def readIndexFields (data : Bytes) (restartOffsets : List Nat)
    (s : Bytes × Option BlockHandle) (pos : Nat) : Exec (Bytes × IndexValue × Nat) := do
  let (keyScratch,lastHandle) := s
  let atRestart := restartOffsets.contains pos
  let (shared,pos) ← readVarint32 data pos "truncated index entry: shared_bytes"
  let (unshared,pos) ← readVarint32 data pos "truncated index entry: non_shared_bytes"
  if shared.toNat > keyScratch.length then
    throw (.err "corrupt index entry: shared_bytes exceeds last key length")
  let deltaEnd ← checkedAdd 64 pos unshared.toNat
  let keyDelta ← okOr (getRange data pos deltaEnd) "truncated index entry: key_delta"
  let key := keyScratch.take shared.toNat ++ keyDelta
  let isShared := shared ≠ 0
  let (value,pos) ← readIndexValue data (atRestart || !isShared) lastHandle deltaEnd
  pure (key,value,pos)

def IndexValue.handle : IndexValue → Exec BlockHandle
  | .whole handle => .ok handle
  | .delta prev d => do
    let newSize ← checkedAddI64 prev.size.toInt64 d
    let offset ← checkedAdd 64 (← checkedAdd 64 prev.offset.toNat prev.size.toNat)
      blockTrailerSize
    pure ⟨UInt64.ofNat offset,newSize.toUInt64⟩

/-- The handle over the unbounded integers, and an `Err` when it is not one. -/
def IndexValue.exact : IndexValue → Exec BlockHandle
  | .whole handle => .ok handle
  | .delta prev d =>
    let offset := prev.offset.toNat+prev.size.toNat+blockTrailerSize
    let size := prev.size.toNat+d.toInt
    if offset < 2^64 ∧ 0 ≤ size ∧ size < 2^64 then
      .ok ⟨UInt64.ofNat offset,UInt64.ofNat size.toNat⟩
    else .error (.err "index handle out of range")

def indexStep (resolve : IndexValue → Exec BlockHandle) (data : Bytes)
    (restartOffsets : List Nat) (s : Bytes × Option BlockHandle) (pos : Nat) :
    Exec ((Bytes × BlockHandle) × (Bytes × Option BlockHandle) × Nat) := do
  let (key,value,pos) ← readIndexFields data restartOffsets s pos
  let handle ← resolve value
  pure ((key,handle),(key,some handle),pos)

theorem readHandle_eq (data : Bytes) (full : Bool) (lastHandle : Option BlockHandle) (pos : Nat) :
    readHandle data full lastHandle pos = (do
      let (value,pos) ← readIndexValue data full lastHandle pos
      let handle ← value.handle
      pure (handle,pos)) := by
  cases full with
  | true => simp only [readHandle,readIndexValue,↓reduceIte,bind_assoc,pure_bind,IndexValue.handle,
      ok_bind]
  | false =>
    simp only [readHandle,readIndexValue,Bool.false_eq_true,↓reduceIte,bind_assoc,pure_bind,
      IndexValue.handle]

theorem readIndexEntry_eq (data : Bytes) (restartOffsets : List Nat) :
    readIndexEntry data restartOffsets = indexStep IndexValue.handle data restartOffsets := by
  funext s pos
  simp only [readIndexEntry,indexStep,readIndexFields,readHandle_eq,bind_assoc,pure_bind]
  refine bind_congr (fun x => bind_congr (fun y => ?_))
  split
  · rfl
  · simp only [bind_assoc,pure_bind]

/-- Where the two agree, and both give a handle: nothing leaves its type, and the sizes are on
the same side of 2^63. -/
def Bounded (prev : BlockHandle) (d : Int64) : Prop :=
  prev.offset.toNat+prev.size.toNat+5 < 2^64 ∧ 0 ≤ prev.size.toNat+d.toInt ∧
    prev.size.toNat+d.toInt < 2^64 ∧
    (prev.size.toNat < 2^63 ↔ prev.size.toNat+d.toInt < 2^63)

theorem toInt_toInt64 (u : UInt64) :
    u.toInt64.toInt = if u.toNat < 2^63 then (u.toNat : Int) else u.toNat-2^64 := by
  have h : u.toInt64.toInt = if 2*u.toNat < 2^64 then (u.toNat : Int) else u.toNat-(2^64 : Nat) :=
    BitVec.toInt_eq_toNat_cond u.toBitVec
  rw [h]
  split <;> split <;> omega

theorem checkedAddI64_cases (u : UInt64) (d : Int64) :
    (-2^63 ≤ u.toInt64.toInt+d.toInt ∧ u.toInt64.toInt+d.toInt < 2^63 ∧
      ∃ v : UInt64, checkedAddI64 u.toInt64 d = .ok v.toInt64 ∧
        v.toInt64.toInt = u.toInt64.toInt+d.toInt) ∨
    (¬ (-2^63 ≤ u.toInt64.toInt+d.toInt ∧ u.toInt64.toInt+d.toInt < 2^63) ∧
      checkedAddI64 u.toInt64 d = .error .overflow) := by
  by_cases h : -2^63 ≤ u.toInt64.toInt+d.toInt ∧ u.toInt64.toInt+d.toInt < 2^63
  · refine .inl ⟨h.1,h.2,(u.toInt64+d).toUInt64,?_,?_⟩
    · rw [checkedAddI64,if_pos h]
      rfl
    · change (u.toInt64+d).toInt = _
      rw [Int64.toInt_add]
      exact Int.bmod_eq_of_le (by omega) (by omega)
  · exact .inr ⟨h,by rw [checkedAddI64,if_neg h]⟩

theorem delta_bounded {prev : BlockHandle} {d : Int64} (h : Bounded prev d) :
    ∃ handle, (IndexValue.delta prev d).handle = .ok handle ∧
      (IndexValue.delta prev d).exact = .ok handle := by
  obtain ⟨ho,hlow,hhigh,hside⟩ := h
  have hs := toInt_toInt64 prev.size
  have hlt := prev.size.toNat_lt
  rcases checkedAddI64_cases prev.size d with ⟨-,-,v,hv,hval⟩ | ⟨hno,-⟩
  · have hv' := toInt_toInt64 v
    have hvlt := v.toNat_lt
    have hsize : v = UInt64.ofNat (prev.size.toNat+d.toInt).toNat := by
      apply UInt64.toNat_inj.mp
      rw [toNat_ofNat64 (by omega)]
      split at hs <;> split at hv' <;> omega
    refine ⟨⟨UInt64.ofNat (prev.offset.toNat+prev.size.toNat+5),v⟩,?_,?_⟩
    · simp only [IndexValue.handle,hv,ok_bind,blockTrailerSize]
      rw [checkedAdd_of_lt (by omega),ok_bind,checkedAdd_of_lt ho]
      rfl
    · rw [IndexValue.exact,blockTrailerSize,if_pos ⟨ho,hlow,hhigh⟩,← hsize]
  · exfalso
    split at hs <;> omega

theorem delta_unbounded {prev : BlockHandle} {d : Int64} (h : ¬ Bounded prev d) :
    (IndexValue.delta prev d).handle = .error .overflow ∨
      ∃ handle m, (IndexValue.delta prev d).handle = .ok handle ∧
        (IndexValue.delta prev d).exact = .error (.err m) := by
  have hs := toInt_toInt64 prev.size
  rcases checkedAddI64_cases prev.size d with ⟨hlow,hhigh,v,hv,-⟩ | ⟨-,hov⟩
  · by_cases ho : prev.offset.toNat+prev.size.toNat+5 < 2^64
    · refine .inr ⟨⟨UInt64.ofNat (prev.offset.toNat+prev.size.toNat+5),v⟩,
        "index handle out of range",?_,?_⟩
      · simp only [IndexValue.handle,hv,ok_bind,blockTrailerSize]
        rw [checkedAdd_of_lt (by omega),ok_bind,checkedAdd_of_lt ho]
        rfl
      · rw [IndexValue.exact,if_neg]
        rintro ⟨-,h₀,h₁⟩
        refine h ⟨ho,h₀,h₁,?_⟩
        split at hs <;> omega
    · refine .inl ?_
      simp only [IndexValue.handle,hv,ok_bind,blockTrailerSize]
      by_cases hsum : prev.offset.toNat+prev.size.toNat < 2^64
      · rw [checkedAdd_of_lt hsum,ok_bind,checkedAdd,if_neg ho]
        rfl
      · rw [checkedAdd,if_neg hsum]
        rfl
  · refine .inl ?_
    simp only [IndexValue.handle,hov,error_bind]

theorem IndexValue.handle_cases (value : IndexValue) :
    (∃ handle, value.handle = .ok handle ∧ value.exact = .ok handle ∧
      ∀ prev d, value = .delta prev d → Bounded prev d) ∨
    ∃ prev d, value = .delta prev d ∧ ¬ Bounded prev d ∧
      (value.handle = .error .overflow ∨
        ∃ handle m, value.handle = .ok handle ∧ value.exact = .error (.err m)) := by
  cases value with
  | whole handle => exact .inl ⟨handle,rfl,rfl,by simp⟩
  | delta prev d =>
    by_cases hb : Bounded prev d
    · obtain ⟨handle,hm,hx⟩ := delta_bounded hb
      refine .inl ⟨handle,hm,hx,fun prev' d' h => ?_⟩
      obtain ⟨rfl,rfl⟩ := IndexValue.delta.inj h
      exact hb
    · exact .inr ⟨prev,d,rfl,hb,delta_unbounded hb⟩

section
variable {data : Bytes} {restartOffsets : List Nat}

theorem readIndexValue_returns (full : Bool) (lastHandle : Option BlockHandle) (pos : Nat) :
    Returns (readIndexValue data full lastHandle pos) := by
  cases full with
  | true =>
    refine (readVarint64_returns _ _ _).bind (fun ⟨offset,p⟩ _ => ?_)
    exact (readVarint64_returns _ _ _).bind (fun _ _ => .ok _)
  | false =>
    refine (okOr_returns _ _).bind (fun prev _ => ?_)
    exact (okOr_returns _ _).bind (fun d _ => .ok _)

theorem readIndexValue_moves {full : Bool} {lastHandle : Option BlockHandle} {pos q : Nat}
    {value : IndexValue} (h : readIndexValue data full lastHandle pos = .ok (value,q)) :
    pos < q ∧ q ≤ data.length := by
  cases full with
  | true =>
    obtain ⟨⟨offset,p⟩,ho,h⟩ := bind_eq_ok h
    obtain ⟨⟨size,p'⟩,hs,h⟩ := bind_eq_ok h
    obtain ⟨-,rfl⟩ := Prod.mk.inj (Except.ok.inj h)
    have h₁ := readVarint64_moves ho
    have h₂ := readVarint64_moves hs
    omega
  | false =>
    obtain ⟨prev,-,h⟩ := bind_eq_ok h
    split at h
    rename_i hg
    obtain ⟨d,hd,h⟩ := bind_eq_ok h
    obtain ⟨-,rfl⟩ := Prod.mk.inj (Except.ok.inj h)
    exact getVarsigned64_moves (okOr_eq_ok hd ▸ hg)

theorem readIndexFields_returns (hl : data.length < 2^63) (s : Bytes × Option BlockHandle)
    (pos : Nat) : Returns (readIndexFields data restartOffsets s pos) := by
  refine (readVarint32_returns _ _ _).bind (fun ⟨shared,p₁⟩ hs => ?_)
  refine (readVarint32_returns _ _ _).bind (fun ⟨unshared,p₂⟩ hu => ?_)
  have hp := (readVarint32_moves hu).2
  have hul := unshared.toNat_lt
  simp only
  split
  · exact .err _
  · rw [checkedAdd_of_lt (by omega),ok_bind]
    refine (okOr_returns _ _).bind (fun keyDelta _ => ?_)
    exact (readIndexValue_returns _ _ _).bind (fun _ _ => .ok _)

theorem readIndexFields_moves {s : Bytes × Option BlockHandle} {pos q : Nat} {key : Bytes}
    {value : IndexValue} (h : readIndexFields data restartOffsets s pos = .ok (key,value,q)) :
    pos < q ∧ q ≤ data.length := by
  obtain ⟨⟨shared,p₁⟩,hs,h⟩ := bind_eq_ok h
  obtain ⟨⟨unshared,p₂⟩,hu,h⟩ := bind_eq_ok h
  simp only at h
  split at h
  · contradiction
  · obtain ⟨stop,hstop,h⟩ := bind_eq_ok h
    obtain ⟨keyDelta,-,h⟩ := bind_eq_ok h
    obtain ⟨⟨v,p₃⟩,hv,h⟩ := bind_eq_ok h
    obtain ⟨-,-,rfl⟩ : _ ∧ _ ∧ _ := by simpa using h
    have h₁ := readVarint32_moves hs
    have h₂ := readVarint32_moves hu
    have h₃ := readIndexValue_moves hv
    have hadd := checkedAdd_eq_ok hstop
    omega

theorem indexStep_moves {resolve : IndexValue → Exec BlockHandle}
    {s s' : Bytes × Option BlockHandle} {pos q : Nat} {e : Bytes × BlockHandle}
    (h : indexStep resolve data restartOffsets s pos = .ok (e,s',q)) :
    pos < q ∧ q ≤ data.length := by
  obtain ⟨⟨key,value,p⟩,hf,h⟩ := bind_eq_ok h
  obtain ⟨handle,-,h⟩ := bind_eq_ok h
  obtain ⟨-,-,rfl⟩ : _ ∧ _ ∧ _ := by simpa using h
  exact readIndexFields_moves hf

structure Agrees (r exact : List (Bytes × BlockHandle) × Exec Unit) : Prop where
  returns : Returns r.2
  visited : r.1 = exact.1
  accepts : r.2 = .ok () ↔ exact.2 = .ok ()

def Steady (data : Bytes) (restartOffsets : List Nat) (s : Bytes × Option BlockHandle)
    (pos : Nat) : Prop :=
  ∀ es s' p key prev d q,
    Cursor.Path (indexStep IndexValue.exact data restartOffsets) s pos es s' p →
    readIndexFields data restartOffsets s' p = .ok (key,.delta prev d,q) → Bounded prev d

theorem Agrees.cons_iff (e : Bytes × BlockHandle)
    (r exact : List (Bytes × BlockHandle) × Exec Unit) :
    Agrees (e :: r.1,r.2) (e :: exact.1,exact.2) ↔ Agrees r exact :=
  ⟨fun h => ⟨h.returns,List.tail_eq_of_cons_eq h.visited,h.accepts⟩,
    fun h => ⟨h.returns,congrArg (e :: ·) h.visited,h.accepts⟩⟩

theorem steady_of_unread {s : Bytes × Option BlockHandle} {pos : Nat} {e : Fault}
    (h : readIndexFields data restartOffsets s pos = .error e) :
    Steady data restartOffsets s pos := by
  intro es s' p key prev d q hpath hf
  cases hpath with
  | nil =>
    rw [h] at hf
    contradiction
  | cons hs _ _ =>
    rw [indexStep,h] at hs
    contradiction

theorem steady_of_end {s : Bytes × Option BlockHandle} {pos : Nat} (h : data.length ≤ pos) :
    Steady data restartOffsets s pos := by
  cases hf : readIndexFields data restartOffsets s pos with
  | error e => exact steady_of_unread hf
  | ok r =>
    obtain ⟨key,value,q⟩ := r
    have := readIndexFields_moves hf
    omega

theorem steady_step_iff {s : Bytes × Option BlockHandle} {pos q : Nat} {key : Bytes}
    {value : IndexValue} {handle : BlockHandle}
    (hf : readIndexFields data restartOffsets s pos = .ok (key,value,q))
    (hv : value.exact = .ok handle) (hb : ∀ prev d, value = .delta prev d → Bounded prev d) :
    Steady data restartOffsets s pos ↔ Steady data restartOffsets (key,some handle) q := by
  have hstep : indexStep IndexValue.exact data restartOffsets s pos =
      .ok ((key,handle),(key,some handle),q) := by
    simp only [indexStep,hf,ok_bind,hv,pure_eq_ok]
  constructor
  · intro h es s' p key' prev d q' hpath
    exact h _ s' p key' prev d q' (.cons hstep (indexStep_moves hstep).1 hpath)
  · intro h es s' p key' prev d q' hpath hf'
    cases hpath with
    | nil =>
      rw [hf] at hf'
      obtain ⟨-,rfl,-⟩ : _ ∧ _ ∧ _ := by simpa using hf'
      exact hb prev d rfl
    | cons hs _ hrest =>
      rw [hstep] at hs
      obtain ⟨-,rfl,rfl⟩ : _ ∧ _ ∧ _ := by simpa using hs
      exact h _ s' p key' prev d q' hrest hf'

theorem agrees_iff_steady (hl : data.length < 2^63) {fuel : Nat} {s : Bytes × Option BlockHandle}
    {pos : Nat} (hp : pos ≤ data.length) (hf : data.length-pos ≤ fuel) :
    Agrees (Cursor.walk (indexStep IndexValue.handle data restartOffsets) data.length .outOfFuel
        fuel s pos)
      (Cursor.walk (indexStep IndexValue.exact data restartOffsets) data.length .outOfFuel
        fuel s pos) ↔ Steady data restartOffsets s pos := by
  induction fuel generalizing s pos with
  | zero =>
    have hend : data.length ≤ pos := by omega
    rw [Cursor.walk_of_le hend,Cursor.walk_of_le hend]
    exact ⟨fun _ => steady_of_end hend,fun _ => ⟨.ok (),rfl,Iff.rfl⟩⟩
  | succ fuel ih =>
    by_cases hlt : pos < data.length
    · cases hr : readIndexFields data restartOffsets s pos with
      | error e =>
        obtain ⟨m,rfl⟩ := (readIndexFields_returns hl s pos).fault hr
        have hstep : ∀ resolve, indexStep resolve data restartOffsets s pos =
            .error (.err m) := by
          intro resolve
          simp only [indexStep,hr,error_bind]
        rw [Cursor.walk_error hlt (hstep _),Cursor.walk_error hlt (hstep _)]
        exact ⟨fun _ => steady_of_unread hr,fun _ => ⟨.err m,rfl,Iff.rfl⟩⟩
      | ok r =>
        obtain ⟨key,value,q⟩ := r
        obtain ⟨hq,hqe⟩ := readIndexFields_moves hr
        have hstep : ∀ {resolve : IndexValue → Exec BlockHandle} {handle : BlockHandle},
            resolve value = .ok handle → indexStep resolve data restartOffsets s pos =
              .ok ((key,handle),(key,some handle),q) := by
          intro resolve handle hv
          simp only [indexStep,hr,ok_bind,hv,pure_eq_ok]
        rcases value.handle_cases with ⟨handle,hm,hx,hb⟩ | ⟨prev,d,rfl,hb,hdiff⟩
        · rw [Cursor.walk_step hlt (hstep hm),Cursor.walk_step hlt (hstep hx),Agrees.cons_iff,
            ih hqe (by omega),steady_step_iff hr hx hb]
        · refine ⟨fun hagree => ?_,fun hsteady => ?_⟩
          · rcases hdiff with hov | ⟨handle,m,hm,hx⟩
            · have hstop : indexStep IndexValue.handle data restartOffsets s pos =
                  .error .overflow := by simp only [indexStep,hr,ok_bind,hov,error_bind]
              rw [Cursor.walk_error hlt hstop] at hagree
              obtain ⟨m,hm⟩ := hagree.returns.fault rfl
              contradiction
            · have hstop : indexStep IndexValue.exact data restartOffsets s pos =
                  .error (.err m) := by simp only [indexStep,hr,ok_bind,hx,error_bind]
              rw [Cursor.walk_step hlt (hstep hm),Cursor.walk_error hlt hstop] at hagree
              have := hagree.visited
              contradiction
          · exact absurd (hsteady [] s pos key prev d q .nil hr) hb
    · have hend : data.length ≤ pos := by omega
      rw [Cursor.walk_of_le hend,Cursor.walk_of_le hend]
      exact ⟨fun _ => steady_of_end hend,fun _ => ⟨.ok (),rfl,Iff.rfl⟩⟩

end

def exactIndexEntries (block : ParsedBlock) : List (Bytes × BlockHandle) × Exec Unit :=
  match block.data with
  | .error e => ([],.error e)
  | .ok data =>
    Cursor.walk (indexStep IndexValue.exact data (block.restarts.map UInt32.toNat)) data.length
      .outOfFuel data.length ([],none) 0

/-- Index decoding is exact when every difference it comes to is bounded. -/
theorem forEachIndexEntry_exact_iff (v : ByteVec) {block : ParsedBlock}
    (h : parseBlock v.bytes = .ok block) :
    Agrees (forEachIndexEntry block) (exactIndexEntries block) ↔
      ∀ data, block.data = .ok data →
        Steady data (block.restarts.map UInt32.toNat) ([],none) 0 := by
  obtain ⟨data,hs,hd⟩ := parseBlock_splits h
  have hlen := blockImage_length data block.restarts
  rw [← hs.image] at hlen
  have hv := v.length_lt
  simp only [forEachIndexEntry,exactIndexEntries,hd,readIndexEntry_eq,Except.ok.injEq,
    forall_eq']
  exact agrees_iff_steady (by omega) (Nat.zero_le _) (Nat.sub_le _ _)

def shrunk : ByteVec where
  bytes := [0,1,97,0,0,1,0,1,0,0,0,0,1,0,0,0]
  length_lt := by decide

def shrunkToNone : ByteVec where
  bytes := [0,1,97,0,1,1,0,1,0,0,0,0,1,0,0,0]
  length_lt := by decide

theorem forEachIndexEntry_exact_shrunkToNone :
    parseBlock shrunkToNone.bytes = .ok ⟨shrunkToNone.bytes,[0]⟩ ∧
    forEachIndexEntry ⟨shrunkToNone.bytes,[0]⟩ = ([([97],⟨0,1⟩),([97],⟨6,0⟩)],.ok ()) ∧
    Agrees (forEachIndexEntry ⟨shrunkToNone.bytes,[0]⟩)
      (exactIndexEntries ⟨shrunkToNone.bytes,[0]⟩) := by
  have hparse : parseBlock shrunkToNone.bytes = .ok ⟨shrunkToNone.bytes,[0]⟩ := by decide
  refine ⟨hparse,by decide,(forEachIndexEntry_exact_iff shrunkToNone hparse).mpr ?_⟩
  intro data hd
  obtain rfl : [0,1,97,0,1,1,0,1] = data := Except.ok.inj
    ((show _ = .ok [0,1,97,0,1,1,0,1] by decide).symm.trans hd)
  have hfirst : readIndexFields [0,1,97,0,1,1,0,1] [0] ([],none) 0 =
      .ok ([97],.whole ⟨0,1⟩,5) := rfl
  have hsecond : readIndexFields [0,1,97,0,1,1,0,1] [0] ([97],some ⟨0,1⟩) 5 =
      .ok ([97],.delta ⟨0,1⟩ (-1),8) := rfl
  have hhandle : (IndexValue.delta ⟨0,1⟩ (-1)).exact = .ok ⟨6,0⟩ := by decide
  refine (steady_step_iff hfirst rfl nofun).mpr ?_
  refine (steady_step_iff hsecond hhandle ?_).mpr (steady_of_end (by decide))
  rintro prev d ⟨⟩
  exact ⟨by decide,by decide,by decide,by decide⟩

theorem forEachIndexEntry_shrunk_not_exact :
    ∃ block, parseBlock shrunk.bytes = .ok block ∧
      forEachIndexEntry block = ([([97],⟨0,0⟩),([97],⟨5,0xffffffffffffffff⟩)],.ok ()) ∧
      ¬ Agrees (forEachIndexEntry block) (exactIndexEntries block) := by
  refine ⟨⟨shrunk.bytes,[0]⟩,by decide,by decide,fun h => ?_⟩
  have hv := h.visited
  revert hv
  decide

end SstCompactor
