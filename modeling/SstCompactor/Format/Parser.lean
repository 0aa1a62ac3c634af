import SstCompactor.Format.BlockBuilder

set_option autoImplicit false

namespace SstCompactor
open FixedWidth

theorem words_of_bytes (bs : Bytes) {n : Nat} (h : bs.length = 4*n) :
    ∃ ws : List UInt32, ws.length = n ∧ bs = ws.flatMap (fun w => leBytes 4 w.toNat) := by
  induction n generalizing bs with
  | zero => exact ⟨[],rfl,List.length_eq_zero_iff.mp h⟩
  | succ n ih =>
    obtain ⟨w,hw⟩ := word_of_bytes (bs.take 4) (by rw [List.length_take]; omega)
    obtain ⟨ws,hl,hws⟩ := ih (bs.drop 4) (by rw [List.length_drop]; omega)
    refine ⟨w :: ws,by rw [List.length_cons,hl],?_⟩
    rw [List.flatMap_cons,← hw,← hws,List.take_append_drop]

structure Splits (bytes data : Bytes) (restarts : List UInt32) : Prop where
  length_lt : restarts.length < 2^32
  image : bytes = blockImage data restarts

theorem Splits.parse {bytes data : Bytes} {restarts : List UInt32}
    (h : Splits bytes data restarts) :
    parseBlock bytes = .ok ⟨bytes,restarts⟩ ∧ (ParsedBlock.mk bytes restarts).data = .ok data := by
  rw [h.image]
  exact parseBlock_whole data h.length_lt

/-- `parse_block` takes every such block apart and answers with an `Err` to all other bytes. -/
theorem parseBlock_cases (bytes : Bytes) :
    (∃ data restarts, Splits bytes data restarts) ∨ ∃ m, parseBlock bytes = .error (.err m) := by
  by_cases h4 : bytes.length < 4
  · refine .inr ⟨"block too small to contain restart trailer",?_⟩
    simp only [parseBlock,h4,↓reduceIte,throw_eq_error,error_bind]
  · generalize hcut : bytes.length-4 = cut
    obtain ⟨count,hcount⟩ := word_of_bytes (bytes.drop cut) (by rw [List.length_drop]; omega)
    have hbytes : bytes = bytes.take cut ++ leBytes 4 count.toNat := by
      rw [← hcount,List.take_append_drop]
    have hread : readU32 bytes cut = .ok count := by
      refine readU32_at (p:=bytes.take cut) (q:=[]) count (by rwa [List.append_nil]) ?_
      rw [List.length_take]
      omega
    by_cases hfit : bytes.length < 4+count.toNat*4
    · refine .inr ⟨"block restart array out of bounds",?_⟩
      simp only [parseBlock,h4,↓reduceIte,pure_eq_ok,ok_bind,hcut,hread,hfit,throw_eq_error,
        error_bind]
    · obtain ⟨restarts,hl,hr⟩ := words_of_bytes (n:=count.toNat)
        ((bytes.take cut).drop (cut-count.toNat*4)) (by
          rw [List.length_drop,List.length_take]
          omega)
      refine .inl ⟨(bytes.take cut).take (cut-count.toNat*4),restarts,by
        rw [hl]; exact count.toNat_lt,?_⟩
      rw [blockImage,← hr,List.take_append_drop,hl,UInt32.ofNat_toNat]
      exact hbytes

theorem parseBlock_splits {bytes : Bytes} {block : ParsedBlock}
    (h : parseBlock bytes = .ok block) :
    ∃ data, Splits bytes data block.restarts ∧ block.data = .ok data := by
  rcases parseBlock_cases bytes with ⟨data,restarts,hs⟩ | ⟨m,hm⟩
  · obtain ⟨hp,hd⟩ := hs.parse
    obtain rfl : ⟨bytes,restarts⟩ = block := Except.ok.inj (hp.symm.trans h)
    exact ⟨data,hs,hd⟩
  · rw [hm] at h
    contradiction

/-- The records of a front part of `data` that no other such part goes beyond. -/
def Longest (data : Bytes) (es : List Entry) : Prop :=
  ∃ head, head <+: data ∧ Denotes [] head es ∧
    ∀ head' es', head' <+: data → Denotes [] head' es' → head' <+: head

structure ReadExactly (data : Bytes) (r : List Entry × Exec Unit) : Prop where
  returns : Returns r.2
  accepts : r.2 = .ok () ↔ ∃ es, Denotes [] data es
  visited : ∀ es, Denotes [] data es → r.1 = es
  longest : Longest data r.1

section
variable {data : Bytes} (hl : data.length < 2^63)
include hl

theorem Denotes.path_of_prefix {head : Bytes} {es : List Entry} (h : Denotes [] head es)
    (hp : head <+: data) : ∃ fin, Cursor.Path (readEntry data) [] 0 es fin head.length := by
  obtain ⟨rest,rfl⟩ := hp
  have hpath := h.path (p:=0) hl rfl
  exact ⟨_,by rwa [Nat.zero_add] at hpath⟩

theorem walk_readsExactly :
    ReadExactly data (Cursor.walk (readEntry data) data.length .outOfFuel data.length [] 0) := by
  have hstep : ∀ last pos e last' pos', readEntry data last pos = .ok (e,last',pos') →
      pos < pos' ∧ pos' ≤ data.length := by
    intro last pos e last' pos' h
    obtain ⟨-,hle,record,hr,-,hq⟩ := readEntry_sound h
    have := hr.length_pos
    omega
  obtain ⟨fin,p,hpath,hp,hend⟩ := Cursor.walk_ends Fault.outOfFuel (s:=([] : Bytes)) hstep
    (Nat.zero_le _) (Nat.sub_le _ _)
  have hall : ∀ es, Denotes [] data es →
      Cursor.walk (readEntry data) data.length .outOfFuel data.length [] 0 = (es,.ok ()) := by
    intro es hes
    obtain ⟨fin,hes⟩ := hes.path_of_prefix hl (List.prefix_refl data)
    exact Cursor.walk_path_end hes (Nat.sub_le _ _)
  generalize Cursor.walk (readEntry data) data.length .outOfFuel data.length [] 0 = r at *
  obtain ⟨head,hden,hdrop,hlen⟩ := denotes_of_path hpath
  rw [List.drop_zero] at hdrop
  rw [Nat.zero_add] at hlen
  have hhead : head <+: data := ⟨_,hdrop.symm⟩
  rcases hend with ⟨rfl,hok⟩ | ⟨hlt,e,he,herr⟩
  · -- the walk came to the end: the front part is everything
    obtain rfl : head = data := hhead.eq_of_length hlen.symm
    exact ⟨hok ▸ .ok (),⟨fun _ => ⟨_,hden⟩,fun _ => hok⟩,fun es hes => by rw [hall es hes],
      head,List.prefix_refl _,hden,fun _ _ hp' _ => hp'⟩
  · -- the walk failed at `p`, which no path from the start goes beyond
    have hmax : ∀ head' es', head' <+: data → Denotes [] head' es' → head'.length ≤ p := by
      intro head' es' hp' hes'
      obtain ⟨fin',hpath'⟩ := hes'.path_of_prefix hl hp'
      exact hpath'.le_of_error hpath he
    have hnone : ∀ es, ¬ Denotes [] data es := by
      intro es hes
      have := hmax data es (List.prefix_refl _) hes
      omega
    refine ⟨?_,⟨fun hok => ?_,fun ⟨es,hes⟩ => absurd hes (hnone es)⟩,
      fun es hes => absurd hes (hnone es),head,hhead,hden,fun head' es' hp' hes' => ?_⟩
    · obtain ⟨m,rfl⟩ := (readEntry_returns hl).fault he
      rw [herr]
      exact .err m
    · rw [hok] at herr
      contradiction
    · have := hmax head' es' hp' hes'
      exact List.prefix_of_prefix_length_le hp' hhead (by omega)

end

/-- The parser of data blocks is total and accepts its grammar. -/
theorem parser_exact (v : ByteVec) :
    Returns (parseBlock v.bytes) ∧
    ((∃ block, parseBlock v.bytes = .ok block) ↔ ∃ data restarts, Splits v.bytes data restarts) ∧
    ∀ block, parseBlock v.bytes = .ok block →
      ∃ data, Splits v.bytes data block.restarts ∧ ReadExactly data (forEachEntry block) := by
  have hcases := parseBlock_cases v.bytes
  refine ⟨?_,⟨fun ⟨block,hb⟩ => ?_,fun ⟨data,restarts,hs⟩ => ⟨_,hs.parse.1⟩⟩,fun block hb => ?_⟩
  · rcases hcases with ⟨data,restarts,hs⟩ | ⟨m,hm⟩
    · exact .inl ⟨_,hs.parse.1⟩
    · exact .inr ⟨m,hm⟩
  · obtain ⟨data,hs,-⟩ := parseBlock_splits hb
    exact ⟨data,_,hs⟩
  · obtain ⟨data,hs,hd⟩ := parseBlock_splits hb
    have hlen := blockImage_length data block.restarts
    rw [← hs.image] at hlen
    have hv := v.length_lt
    refine ⟨data,hs,?_⟩
    rw [forEachEntry,hd]
    exact walk_readsExactly (by omega)

end SstCompactor
