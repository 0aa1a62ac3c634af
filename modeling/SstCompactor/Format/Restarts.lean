import SstCompactor.Format.BlockBuilder

/-!
Restart points of a data block. A block that is about to set a restart point continues as
a block of its own would begin, so that a reader may enter it there with nothing in its key
buffer.
-/

set_option autoImplicit false

namespace SstCompactor
open FixedWidth

namespace BlockBuilder

theorem append_interval (b : BlockBuilder) (e : Entry) :
    (b.append e).restartInterval = b.restartInterval := rfl

theorem ofEntries_interval (r : Nat) (es : List Entry) :
    (ofEntries r es).restartInterval = r := by
  induction es using List.reverseRecOn with
  | nil => rfl
  | append_singleton es e ih => rw [ofEntries_snoc,append_interval,ih]

def nextRecord (b : BlockBuilder) (e : Entry) : Bytes :=
  let shared := if b.counter ≥ b.restartInterval then 0 else sharedPrefixLen b.lastKey e.1
  recordBytes shared (e.1.drop shared) e.2

theorem append_buffer (b : BlockBuilder) (e : Entry) :
    (b.append e).buffer = b.buffer ++ b.nextRecord e := rfl

/-- What is appended depends on the builder only through its interval, its last key and its
counter. -/
theorem foldl_append_buffer (b b' : BlockBuilder) (es : List Entry)
    (hi : b'.restartInterval = b.restartInterval) (hk : b'.lastKey = b.lastKey)
    (hc : b'.counter = b.counter) :
    ∃ d, (es.foldl append b).buffer = b.buffer ++ d ∧
      (es.foldl append b').buffer = b'.buffer ++ d := by
  induction es generalizing b b' with
  | nil => exact ⟨[],by simp,by simp⟩
  | cons e es ih =>
    obtain ⟨d,h,h'⟩ := ih (b.append e) (b'.append e) hi rfl (by simp only [append,hi,hc])
    have hrec : b'.nextRecord e = b.nextRecord e := by simp only [nextRecord,hi,hk,hc]
    refine ⟨b.nextRecord e ++ d,?_,?_⟩
    · rw [List.foldl_cons,h,append_buffer,List.append_assoc]
    · rw [List.foldl_cons,h',append_buffer,hrec,List.append_assoc]

theorem foldl_append_restart (b : BlockBuilder) (es : List Entry) (hi : 1 ≤ b.restartInterval)
    (hc : b.restartInterval ≤ b.counter) :
    (es.foldl append b).buffer = b.buffer ++ (ofEntries b.restartInterval es).buffer := by
  cases es with
  | nil => simp [ofEntries,empty]
  | cons e es =>
    have hn : ¬ 0 ≥ b.restartInterval := by omega
    have hs : sharedPrefixLen [] e.1 = 0 := by simp [sharedPrefixLen]
    obtain ⟨d,h,h'⟩ := foldl_append_buffer (b.append e) ((empty b.restartInterval).append e) es
      rfl rfl (by simp only [append,empty,ge_iff_le,hc,hn,↓reduceIte])
    have hrec : (empty b.restartInterval).nextRecord e = b.nextRecord e := by
      simp only [nextRecord,empty,ge_iff_le,hc,hn,hs,↓reduceIte]
    have hnil : (empty b.restartInterval).buffer = [] := rfl
    rw [List.foldl_cons,h,ofEntries,List.foldl_cons,h',append_buffer,append_buffer,hrec,hnil,
      List.nil_append,List.append_assoc]

theorem ofEntries_counter {r : Nat} (hr : 1 ≤ r) (es : List Entry) (hne : es ≠ []) :
    (ofEntries r es).counter = (es.length-1) % r+1 := by
  induction es using List.reverseRecOn with
  | nil => exact absurd rfl hne
  | append_singleton es e ih =>
    rw [ofEntries_snoc]
    simp only [append,ofEntries_interval,List.length_append,List.length_cons,List.length_nil,
      Nat.zero_add,Nat.add_sub_cancel]
    cases es with
    | nil =>
      have hn : ¬ 0 ≥ r := by omega
      simp [ofEntries,empty]
    | cons x es =>
      rw [ih (by simp),List.length_cons,Nat.add_sub_cancel]
      have hm := Nat.mod_lt es.length (show 0 < r from hr)
      have hs := Nat.add_mod es.length 1 r
      by_cases hf : es.length % r+1 ≥ r
      · have he : es.length % r+1 = r := by omega
        have hz : (es.length+1) % r = 0 := by
          rw [← Nat.mod_add_mod,he,Nat.mod_self]
        simp [hf,hz]
      · have hz : (es.length+1) % r = es.length % r+1 := by
          rw [← Nat.mod_add_mod,Nat.mod_eq_of_lt (by omega)]
        simp [hf,hz]

theorem ofEntries_full {r : Nat} (hr : 1 ≤ r) (es : List Entry) (hne : es ≠ [])
    (hd : es.length % r = 0) : r ≤ (ofEntries r es).counter := by
  rw [ofEntries_counter hr es hne]
  have hpos := List.length_pos_iff.mpr hne
  have hm := Nat.mod_lt (es.length-1) (show 0 < r from hr)
  have hs : ((es.length-1) % r+1) % r = 0 := by
    rw [Nat.mod_add_mod,Nat.sub_add_cancel hpos,hd]
  by_contra hlt
  rw [Nat.mod_eq_of_lt (by omega)] at hs
  omega

/-- A block is the block of its first `j` intervals with the block of the rest behind it. -/
theorem ofEntries_buffer_split {r : Nat} (hr : 1 ≤ r) (es : List Entry) (j : Nat)
    (hj : j*r ≤ es.length) :
    (ofEntries r es).buffer =
      (ofEntries r (es.take (j*r))).buffer ++ (ofEntries r (es.drop (j*r))).buffer := by
  have hsplit : ofEntries r es = (es.drop (j*r)).foldl append (ofEntries r (es.take (j*r))) := by
    rw [ofEntries,ofEntries,← List.foldl_append,List.take_append_drop]
  have hlen : (es.take (j*r)).length = j*r := List.length_take_of_le hj
  cases hz : es.take (j*r) with
  | nil =>
    have hj0 : j*r = 0 := by rw [← hlen,hz]; rfl
    simp [hj0,ofEntries,empty]
  | cons x xs =>
    have hf := ofEntries_full hr (es.take (j*r)) (by rw [hz]; simp)
      (by rw [hlen,Nat.mul_mod_left])
    rw [← hz,hsplit]
    have hr' := foldl_append_restart (ofEntries r (es.take (j*r))) (es.drop (j*r))
      (by rw [ofEntries_interval]; exact hr) (by rw [ofEntries_interval]; exact hf)
    rwa [ofEntries_interval] at hr'

/-- The number of restart points: one for each begun interval, and at least one. -/
def restartCount (r n : Nat) : Nat := max 1 ((n+r-1)/r)

theorem restartCount_zero {r : Nat} (hr : 1 ≤ r) : restartCount r 0 = 1 := by
  have hz : (0+r-1)/r = 0 := Nat.div_eq_of_lt (by omega)
  rw [restartCount,hz]
  rfl

theorem restartCount_add_one {r : Nat} (hr : 1 ≤ r) (n : Nat) :
    restartCount r (n+1) = n/r+1 := by
  have he : n+1+r-1 = n+r := by omega
  rw [restartCount,he,Nat.add_div_right _ hr]
  exact Nat.max_eq_right (Nat.le_add_left 1 _)

theorem restartCount_step {r : Nat} (hr : 1 ≤ r) (n : Nat) :
    restartCount r (n+1) = restartCount r n+if 0 < n ∧ n % r = 0 then 1 else 0 := by
  cases n with
  | zero => simp [restartCount_zero hr,restartCount_add_one hr]
  | succ n =>
    rw [restartCount_add_one hr,restartCount_add_one hr,Nat.succ_div]
    simp only [Nat.dvd_iff_mod_eq_zero,Nat.succ_pos,true_and]
    split <;> rfl

theorem lt_restartCount {r n j : Nat} (hr : 1 ≤ r) (hj : j < restartCount r n) :
    j*r ≤ n ∧ (0 < j → j*r < n) := by
  cases n with
  | zero =>
    rw [restartCount_zero hr] at hj
    have h0 : j = 0 := by omega
    simp [h0]
  | succ n =>
    rw [restartCount_add_one hr] at hj
    have hle := Nat.mul_le_of_le_div r j n (by omega)
    omega

theorem restartCount_mul {r n : Nat} (hr : 1 ≤ r) (hn : 0 < n) (hd : n % r = 0) :
    restartCount r n*r = n := by
  obtain ⟨m,rfl⟩ := Nat.exists_eq_add_of_lt hn
  have hs : (0+m+1)/r = (0+m)/r+1 := by
    rw [Nat.succ_div,if_pos (Nat.dvd_of_mod_eq_zero hd)]
  rw [restartCount_add_one hr,← hs]
  exact Nat.div_mul_cancel (Nat.dvd_of_mod_eq_zero hd)

def restartOffset (r : Nat) (es : List Entry) (j : Nat) : Nat :=
  (ofEntries r (es.take (j*r))).buffer.length

theorem ofEntries_restarts {r : Nat} (hr : 1 ≤ r) (es : List Entry) :
    (ofEntries r es).restarts = (List.range (restartCount r es.length)).map
      (fun j => UInt32.ofNat (restartOffset r es j)) := by
  induction es using List.reverseRecOn with
  | nil => simp [ofEntries,empty,restartCount_zero hr,restartOffset]
  | append_singleton es e ih =>
    -- Earlier restart points do not see the new entry.
    have hold : (List.range (restartCount r es.length)).map
        (fun j => UInt32.ofNat (restartOffset r (es ++ [e]) j)) = (ofEntries r es).restarts := by
      rw [ih]
      refine List.map_congr_left (fun j hj => ?_)
      have hle := (lt_restartCount hr (List.mem_range.mp hj)).1
      rw [restartOffset,restartOffset,List.take_append_of_le_length hle]
    rw [ofEntries_snoc,List.length_append,List.length_singleton,restartCount_step hr]
    simp only [append,ofEntries_interval]
    by_cases hc : 0 < es.length ∧ es.length % r = 0
    · have hne : es ≠ [] := List.length_pos_iff.mp hc.1
      have hfull := ofEntries_full hr es hne hc.2
      have hlast : restartOffset r (es ++ [e]) (restartCount r es.length) =
          (ofEntries r es).buffer.length := by
        rw [restartOffset,restartCount_mul hr hc.1 hc.2,List.take_left]
      simp only [ge_iff_le,hfull,↓reduceIte,hc,and_self,List.range_succ,List.map_append,hold,
        List.map_cons,List.map_nil,hlast]
    · have hnot : ¬ r ≤ (ofEntries r es).counter := by
        cases es with
        | nil =>
          simp only [ofEntries,List.foldl_nil,empty]
          omega
        | cons x xs =>
          rw [ofEntries_counter hr _ (by simp)]
          have hm := Nat.mod_lt xs.length (show 0 < r from hr)
          simp only [List.length_cons,Nat.succ_pos,true_and,Nat.add_sub_cancel] at hc ⊢
          intro hge
          apply hc
          rw [← Nat.mod_add_mod,show xs.length % r+1 = r by omega,Nat.mod_self]
      simp only [ge_iff_le,hnot,↓reduceIte,hc,Nat.add_zero,hold]

theorem restartOffset_zero (r : Nat) (es : List Entry) : restartOffset r es 0 = 0 := by
  simp [restartOffset,ofEntries,empty]

theorem restartOffset_lt {r : Nat} (hr : 1 ≤ r) (es : List Entry) {i j : Nat} (hij : i < j)
    (hj : j*r ≤ es.length) : restartOffset r es i < restartOffset r es j := by
  have hlt : i*r < j*r := Nat.mul_lt_mul_of_pos_right hij hr
  have hlen : (es.take (j*r)).length = j*r := List.length_take_of_le hj
  have hs := congrArg List.length
    (ofEntries_buffer_split hr (es.take (j*r)) i (by rw [hlen]; omega))
  have hsz := (ofEntries_sizes r ((es.take (j*r)).drop (i*r))).1
  rw [List.length_append,List.take_take,Nat.min_eq_left (by omega)] at hs
  rw [List.length_drop,hlen] at hsz
  rw [restartOffset,restartOffset]
  omega

theorem restartOffset_le {r : Nat} (hr : 1 ≤ r) (es : List Entry) {j : Nat}
    (hj : j*r ≤ es.length) : restartOffset r es j ≤ (ofEntries r es).buffer.length := by
  rw [ofEntries_buffer_split hr es j hj,List.length_append]
  exact Nat.le_add_right _ _

theorem ofEntries_fits (r : Nat) (es : List Entry) :
    (ofEntries r es).lastKey.length ≤ (ofEntries r es).buffer.length ∧
      ∀ e ∈ es, e.1.length ≤ (ofEntries r es).buffer.length ∧
        e.2.length ≤ (ofEntries r es).buffer.length := by
  induction es using List.reverseRecOn with
  | nil => simp [ofEntries,empty]
  | append_singleton es e ih =>
    obtain ⟨hl,hes⟩ := ih
    have hnew : e.1.length ≤ ((ofEntries r es).append e).buffer.length ∧
        e.2.length ≤ ((ofEntries r es).append e).buffer.length := by
      have hs := (sharedPrefixLen_spec (ofEntries r es).lastKey e.1).1
      simp only [append,recordBytes,List.length_append,List.length_drop]
      split <;> omega
    have hgrow := (append_sizes (ofEntries r es) e).1
    rw [ofEntries_snoc]
    refine ⟨hnew.1,?_⟩
    intro x hx
    rcases List.mem_append.mp hx with hx | hx
    · have := hes x hx
      omega
    · rw [List.mem_singleton.mp hx]
      exact hnew

theorem ofEntries_fit {r : Nat} {es : List Entry}
    (hl : (ofEntries r es).buffer.length < 2^32) : ∀ e ∈ es, Fits e := by
  intro e he
  obtain ⟨hk,hv⟩ := (ofEntries_fits r es).2 e he
  exact ⟨by omega,by omega⟩

theorem walk_restart {r : Nat} (hr : 1 ≤ r) {es : List Entry}
    (hl : (ofEntries r es).buffer.length < 2^32) {j : Nat} (hj : j*r ≤ es.length) :
    Cursor.walk (readEntry (ofEntries r es).buffer) (ofEntries r es).buffer.length .outOfFuel
      (ofEntries r es).buffer.length [] (restartOffset r es j) = (es.drop (j*r),.ok ()) := by
  have hsplit := ofEntries_buffer_split hr es j hj
  have hrec := ofEntries_records r (es.drop (j*r))
    (fun e he => ofEntries_fit hl e (List.mem_of_mem_drop he))
  have hdrop : (ofEntries r es).buffer.drop (restartOffset r es j) =
      (ofEntries r (es.drop (j*r))).buffer ++ [] := by
    rw [hsplit,restartOffset,List.drop_left,List.append_nil]
  have hpath := hrec.path (by omega) hdrop
  have hend : restartOffset r es j+(ofEntries r (es.drop (j*r))).buffer.length =
      (ofEntries r es).buffer.length := by
    rw [hsplit,restartOffset,List.length_append]
  rw [hend] at hpath
  exact Cursor.walk_path_end hpath (Nat.sub_le _ _)

theorem ofEntries_build {r : Nat} (hr : 1 ≤ r) (es : List Entry) :
    (new r >>= fun b => es.foldlM add b) = .ok (ofEntries r es) := by
  simp only [new,require,ge_iff_le,hr,decide_true,↓reduceIte,ok_bind,pure_eq_ok]
  exact (empty_ready hr).foldlM_add es

theorem restartOffset_toNat {r : Nat} (hr : 1 ≤ r) {es : List Entry}
    (hl : (ofEntries r es).buffer.length < 2^32) {j : Nat} (hj : j < restartCount r es.length) :
    (UInt32.ofNat (restartOffset r es j)).toNat = restartOffset r es j := by
  have hle := restartOffset_le hr es (lt_restartCount hr hj).1
  exact toNat_ofNat32 (by omega)

theorem restarts_head {r : Nat} (hr : 1 ≤ r) (es : List Entry) :
    (ofEntries r es).restarts.head? = some 0 := by
  rw [ofEntries_restarts hr]
  cases hc : restartCount r es.length with
  | zero => simp [restartCount] at hc
  | succ n => simp [List.head?_range,restartOffset_zero]

theorem restarts_ascend {r : Nat} (hr : 1 ≤ r) {es : List Entry}
    (hl : (ofEntries r es).buffer.length < 2^32) :
    (ofEntries r es).restarts.Pairwise (· < ·) := by
  rw [ofEntries_restarts hr,List.pairwise_map]
  refine (List.pairwise_lt_range).imp_of_mem ?_
  intro i j hi hj hij
  have hi := List.mem_range.mp hi
  have hj := List.mem_range.mp hj
  rw [UInt32.lt_iff_toNat_lt,restartOffset_toNat hr hl hi,restartOffset_toNat hr hl hj]
  exact restartOffset_lt hr es hij (lt_restartCount hr hj).1

theorem restarts_getElem {r : Nat} (hr : 1 ≤ r) {es : List Entry}
    (hl : (ofEntries r es).buffer.length < 2^32) {j : Nat} {off : UInt32}
    (h : (ofEntries r es).restarts[j]? = some off) :
    j*r ≤ es.length ∧ off.toNat = restartOffset r es j := by
  rw [ofEntries_restarts hr,List.getElem?_map,Option.map_eq_some_iff] at h
  obtain ⟨i,hi,rfl⟩ := h
  obtain ⟨hlt,hij⟩ := List.getElem?_eq_some_iff.mp hi
  rw [List.length_range] at hlt
  rw [List.getElem_range] at hij
  subst hij
  exact ⟨(lt_restartCount hr hlt).1,restartOffset_toNat hr hl hlt⟩

end BlockBuilder

/-- A data block reads back from its start and from each of its restart points, one for each
begun interval. Building it passes every assertion. -/
theorem dataBlock_restarts {r : Nat} (hr : 1 ≤ r) (es : List Entry) :
    ∃ b, (BlockBuilder.new r >>= fun b => es.foldlM BlockBuilder.add b) = .ok b ∧
      (b.finish.length < 2^32 → ∃ parsed data,
        parseBlock b.finish = .ok parsed ∧ forEachEntry parsed = (es,.ok ()) ∧
        parsed.data = .ok data ∧
        parsed.restarts.length = max 1 ((es.length+r-1)/r) ∧
        parsed.restarts.head? = some 0 ∧ parsed.restarts.Pairwise (· < ·) ∧
        ∀ j off, parsed.restarts[j]? = some off →
          Cursor.walk (readEntry data) data.length .outOfFuel data.length [] off.toNat =
            (es.drop (j*r),.ok ())) := by
  refine ⟨_,BlockBuilder.ofEntries_build hr es,fun hl => ?_⟩
  rw [BlockBuilder.finish,blockImage_length] at hl
  have hbl : (BlockBuilder.ofEntries r es).buffer.length < 2^32 := by omega
  have himg := parseBlock_whole (BlockBuilder.ofEntries r es).buffer
    (show (BlockBuilder.ofEntries r es).restarts.length < 2^32 by omega)
  have hwalk := fun j (hj : j*r ≤ es.length) => BlockBuilder.walk_restart hr hbl hj
  refine ⟨_,_,himg.1,?_,himg.2,?_,BlockBuilder.restarts_head hr es,
    BlockBuilder.restarts_ascend hr hbl,?_⟩
  · rw [forEachEntry,himg.2]
    simpa [BlockBuilder.restartOffset_zero] using hwalk 0 (by omega)
  · rw [BlockBuilder.ofEntries_restarts hr,List.length_map,List.length_range]
    rfl
  · intro j off hj
    obtain ⟨hle,hoff⟩ := BlockBuilder.restarts_getElem hr hbl hj
    rw [hoff]
    exact hwalk j hle

def threeEntries : List Entry := [([1,2],[3]),([1,2,4],[]),([],[5])]

theorem dataBlock_restarts_three :
    ∃ b, (BlockBuilder.new 2 >>= fun b => threeEntries.foldlM BlockBuilder.add b) = .ok b ∧
      b.finish.length < 2^32 ∧ ∃ parsed data,
        parseBlock b.finish = .ok parsed ∧ forEachEntry parsed = (threeEntries,.ok ()) ∧
        parsed.data = .ok data ∧
        parsed.restarts.length = max 1 ((threeEntries.length+2-1)/2) ∧
        parsed.restarts.head? = some 0 ∧ parsed.restarts.Pairwise (· < ·) ∧
        ∀ j off, parsed.restarts[j]? = some off →
          Cursor.walk (readEntry data) data.length .outOfFuel data.length [] off.toNat =
            (threeEntries.drop (j*2),.ok ()) := by
  obtain ⟨b,hb,h⟩ := dataBlock_restarts (r:=2) (by decide) threeEntries
  have hof : b = BlockBuilder.ofEntries 2 threeEntries := by
    have he := hb.symm.trans (show _ = .ok (BlockBuilder.ofEntries 2 threeEntries) from rfl)
    simpa using he
  have hl : b.finish.length < 2^32 := by
    rw [hof]
    decide
  exact ⟨b,hb,hl,h hl⟩

end SstCompactor
