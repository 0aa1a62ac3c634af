import SstCompactor.Compaction.FormatVersions
import SstCompactor.Compaction.Ingest
import SstCompactor.Compaction.Shard
import SstCompactor.Compaction.Stages
import Mathlib.Logic.Relation

/-!
Runs of compaction jobs over a store of files. Each job takes some of the files, whichever they
are, and puts the file that comes out, or the files of the shards, in their place. What a reader
sees over all files together stays as it is, and a compaction of everything at the end writes the
same bytes as it would have written at the start.
-/

set_option autoImplicit false

namespace SstCompactor
open FixedWidth Pieces

/-- Some of the entries `es`, with every version the reader looks for among them. -/
structure Part (visible : Nat → Bool) (fs es : List Entry) : Prop where
  subset : ∀ e ∈ fs, e ∈ es
  newest : ∀ e ∈ es, newestWhere visible es e = true → e ∈ fs

theorem Part.of_mem {visible : Nat → Bool} {fs es : List Entry} (h : ∀ e, e ∈ fs ↔ e ∈ es) :
    Part visible fs es :=
  ⟨fun e he => (h e).mp he,fun e he _ => (h e).mpr he⟩

theorem Part.down {visible : Nat → Bool} {fs es : List Entry} (h : ∀ e ∈ fs, e ∈ es) {e : Entry}
    (hn : newestWhere visible es e = true) : newestWhere visible fs e = true := by
  obtain ⟨hv,hmax⟩ := newestWhere_iff.mp hn
  exact newestWhere_iff.mpr ⟨hv,fun x hx => hmax x (h x hx)⟩

theorem Part.trans {visible : Nat → Bool} {gs fs es : List Entry} (h : Part visible gs fs)
    (h' : Part visible fs es) : Part visible gs es := by
  refine ⟨fun e he => h'.subset e (h.subset e he),fun e he hn => ?_⟩
  exact h.newest e (h'.newest e he hn) (Part.down h'.subset hn)

theorem Part.append {visible : Nat → Bool} {fs es : List Entry} (h : Part visible fs es)
    (gs : List Entry) : Part visible (fs ++ gs) (es ++ gs) := by
  refine ⟨fun e he => ?_,fun e he hn => ?_⟩
  · rcases List.mem_append.mp he with he | he
    · exact List.mem_append_left _ (h.subset e he)
    · exact List.mem_append_right _ he
  · rcases List.mem_append.mp he with he | he
    · exact List.mem_append_left _
        (h.newest e he (Part.down (fun x hx => List.mem_append_left _ hx) hn))
    · exact List.mem_append_right _ he

theorem Part.find {visible : Nat → Bool} {fs es : List Entry} (h : Part visible fs es)
    (hf : Distinct fs) (he : Distinct es) (u : Bytes) :
    findVersion visible fs u = findVersion visible es u := by
  refine Option.ext (fun e => ?_)
  have hp := newest_part he h.subset h.newest e
  rw [findVersion_some hf,findVersion_some he]
  tauto

theorem Part.read {visible : Nat → Bool} {fs es : List Entry} (h : Part visible fs es)
    (hf : Distinct fs) (he : Distinct es) (u : Bytes) :
    read visible fs u = read visible es u := by
  rw [SstCompactor.read,SstCompactor.read,h.find hf he u]

theorem read_eq_some {es : List Entry} (h : Distinct es) {u v : Bytes} :
    read always es u = some v ↔ ∃ e ∈ bottommostKept es, userKey e.1 = u ∧ e.2 = v := by
  constructor
  · intro hr
    rw [read] at hr
    split at hr
    · rename_i e hf
      obtain ⟨he,hu,hn⟩ := (findVersion_some h).mp hf
      split at hr
      · contradiction
      · rename_i ht
        exact ⟨e,mem_bottommostKept.mpr ⟨he,hn,by simpa using ht⟩,hu,Option.some.inj hr⟩
    · contradiction
  · rintro ⟨e,he,rfl,rfl⟩
    obtain ⟨he,hn,ht⟩ := mem_bottommostKept.mp he
    rw [read,(findVersion_some h).mpr ⟨he,rfl,hn⟩]
    simp [ht]

theorem read_of_bottommost {fs es : List Entry} (hf : Distinct fs) (he : Distinct es)
    (h : ∀ e, e ∈ bottommostKept fs ↔ e ∈ bottommostKept es) (u : Bytes) :
    read always fs u = read always es u := by
  refine Option.ext (fun v => ?_)
  rw [read_eq_some hf,read_eq_some he]
  simp only [h]

theorem Part.bottommost {fs es : List Entry} (h : Part always fs es) (he : Distinct es)
    (e : Entry) : e ∈ bottommostKept fs ↔ e ∈ bottommostKept es := by
  have hp := newest_part he h.subset h.newest e
  rw [mem_bottommostKept,mem_bottommostKept,← and_assoc,← and_assoc,hp]

def Provided.Serves : Provided → (Nat → Bool) → Prop
  | .bottommost,_ => False
  | .snapshotAware s,visible => visible = always ∨ visible = upTo s
  | .passthrough,_ => True

theorem Provided.kept_part {p : Provided} {visible : Nat → Bool} (h : p.Serves visible)
    (es : List Entry) : Part visible (p.kept es) es := by
  cases p with
  | bottommost => exact h.elim
  | snapshotAware s =>
    refine ⟨(snapshotKept_sublist s es).subset,fun e he hn => mem_snapshotKept.mpr ⟨he,?_⟩⟩
    rcases h with rfl | rfl
    · exact .inl hn
    · exact .inr hn
  | passthrough => exact Part.of_mem (fun e => Iff.rfl)

/-- No deletion mark among `es` is the newest version of a user key that has a value in the
entries `rest`. -/
def Unburied (es rest : List Entry) : Prop :=
  ∀ d ∈ es, newestWhere always (es ++ rest) d = true → (valueType d.1).isTombstone = true →
    read always rest (userKey d.1) = none

theorem mem_bottommost_staged {es rest : List Entry} {e : Entry}
    (he : e ∈ bottommostKept (es ++ rest)) :
    e ∈ bottommostKept (bottommostKept es ++ rest) := by
  obtain ⟨hmem,hn,ht⟩ := mem_bottommostKept.mp he
  refine mem_bottommostKept.mpr
    ⟨?_,Part.down (List.filter_sublist.append_right rest).subset hn,ht⟩
  rcases List.mem_append.mp hmem with hea | heb
  · exact List.mem_append_left _ (mem_bottommostKept.mpr
      ⟨hea,Part.down (fun _ hx => List.mem_append_left _ hx) hn,ht⟩)
  · exact List.mem_append_right _ heb

section
variable {es rest : List Entry} (h : Distinct (es ++ rest))
include h

theorem left_unique {a b : Entry} (ha : a ∈ es) (hb : b ∈ es) (hu : userKey a.1 = userKey b.1)
    (hna : newestWhere always es a = true) (hnb : newestWhere always (es ++ rest) b = true) :
    a = b :=
  newestWhere_unique (h.sublist (List.sublist_append_left es rest)) ha hb hu hna
    (Part.down (fun _ hx => List.mem_append_left _ hx) hnb)

/-- A version that stands out once the deleted keys are gone stood out before, or was hidden by a
deletion mark that is gone. -/
theorem bottommost_staged_mem (hr : Unburied es rest) {e : Entry}
    (he : e ∈ bottommostKept (bottommostKept es ++ rest)) : e ∈ bottommostKept (es ++ rest) := by
  have hsub : ∀ x ∈ bottommostKept es ++ rest, x ∈ es ++ rest :=
    (List.filter_sublist.append_right rest).subset
  obtain ⟨hmem,hn,ht⟩ := mem_bottommostKept.mp he
  obtain ⟨m,hm,hu,hmn⟩ := exists_newest always (hsub e hmem) rfl
  suffices hmk : m ∈ bottommostKept es ++ rest by
    obtain rfl : e = m := newestWhere_unique (h.sublist (List.filter_sublist.append_right rest))
      hmem hmk hu.symm hn (Part.down hsub hmn)
    exact mem_bottommostKept.mpr ⟨hm,hmn,ht⟩
  rcases List.mem_append.mp hm with hm | hm
  · have hma := Part.down (fun _ hx => List.mem_append_left rest hx) hmn
    cases htm : (valueType m.1).isTombstone with
    | false => exact List.mem_append_left _ (mem_bottommostKept.mpr ⟨hm,hma,htm⟩)
    | true =>
      rcases List.mem_append.mp hmem with hk | hb
      · obtain ⟨hea,hna,-⟩ := mem_bottommostKept.mp hk
        obtain rfl := left_unique h hea hm hu.symm hna hmn
        exact List.mem_append_left _ hk
      · -- The mark `m` is dropped, and the value it hid is read.
        have hnone := hr m hm hmn htm
        have hlive : e ∈ bottommostKept rest := mem_bottommostKept.mpr
          ⟨hb,Part.down (fun _ hx => List.mem_append_right _ hx) hn,ht⟩
        rw [(read_eq_some (h.sublist (List.sublist_append_right es rest))).mpr
          ⟨e,hlive,hu.symm,rfl⟩] at hnone
        contradiction
  · exact List.mem_append_right _ hm

theorem read_resurrected {d : Entry} {v : Bytes} (hd : d ∈ es)
    (hdn : newestWhere always (es ++ rest) d = true) (hdt : (valueType d.1).isTombstone = true)
    (hr : read always rest (userKey d.1) = some v) :
    read always (bottommostKept es ++ rest) (userKey d.1) = some v ∧
      read always (es ++ rest) (userKey d.1) = none := by
  have hrest := h.sublist (List.sublist_append_right es rest)
  obtain ⟨e,he,hu,rfl⟩ := (read_eq_some hrest).mp hr
  obtain ⟨her,hen,het⟩ := mem_bottommostKept.mp he
  constructor
  · refine (read_eq_some (h.sublist (List.filter_sublist.append_right rest))).mpr
      ⟨e,mem_bottommostKept.mpr ⟨List.mem_append_right _ her,?_,het⟩,hu,rfl⟩
    refine newestWhere_iff.mpr ⟨rfl,fun x hx hxu _ => ?_⟩
    rcases List.mem_append.mp hx with hx | hx
    · -- Nothing is kept of the deleted key.
      obtain ⟨hxe,hxn,hxt⟩ := mem_bottommostKept.mp hx
      obtain rfl := left_unique h hxe hd (hxu.trans hu) hxn hdn
      rw [hxt] at hdt
      contradiction
    · exact (newestWhere_iff.mp hen).2 x hx hxu rfl
  · rw [read,(findVersion_some h).mpr ⟨List.mem_append_left _ hd,rfl,hdn⟩]
    simp [hdt]

theorem unburied_of_reads
    (hr : ∀ u, read always (bottommostKept es ++ rest) u = read always (es ++ rest) u) :
    Unburied es rest := by
  intro d hd hdn hdt
  cases hread : read always rest (userKey d.1) with
  | none => rfl
  | some v =>
    obtain ⟨h₁,h₂⟩ := read_resurrected h hd hdn hdt hread
    rw [hr,h₂] at h₁
    contradiction

/-- Dropping the deleted keys of some entries first makes no difference exactly when no deletion
mark among them is the last word on a key that has a value elsewhere. -/
theorem bottommost_staged :
    (∀ e, e ∈ bottommostKept (bottommostKept es ++ rest) ↔ e ∈ bottommostKept (es ++ rest)) ↔
      Unburied es rest := by
  refine ⟨fun hh => unburied_of_reads h (read_of_bottommost ?_ h hh),
    fun hr e => ⟨bottommost_staged_mem h hr,mem_bottommost_staged⟩⟩
  exact h.sublist (List.filter_sublist.append_right rest)

end

theorem unburied_perm {es fs rest : List Entry} (hp : es.Perm fs) :
    Unburied es rest ↔ Unburied fs rest := by
  simp only [Unburied,hp.mem_iff,newestWhere_perm (hp.append_right rest)]

theorem mem_bottommostKept_perm {es fs : List Entry} (hp : es.Perm fs) (e : Entry) :
    e ∈ bottommostKept es ↔ e ∈ bottommostKept fs := by
  rw [mem_bottommostKept,mem_bottommostKept,hp.mem_iff,newestWhere_perm hp]

theorem Inputs.provided_eq {sources : List ArenaSource} {ls : List (List Entry)}
    (h : Inputs sources ls) (X : Crates) (opts : CompactionOptions) (p : Provided) :
    p.compact X sources opts = buildSst X opts.sstBuilder (p.kept (mergedEntries ls)) := by
  have hord := mergedEntries_ordered h.distinct
  have hdrop : ∀ {σ : Type} (r : Exec Bytes) (s : σ),
      (do let (bytes,_) ← (do let bytes ← r; pure (bytes,s)); pure bytes) = r := by
    intro σ r s
    cases r <;> rfl
  cases p with
  | bottommost =>
    rw [Provided.compact,h.compactWithStrategy_eq X opts,keptBy_bottommost,hdrop]
    rfl
  | snapshotAware s =>
    rw [Provided.compact,h.compactWithStrategy_eq X opts,keptBy_snapshot _ hord,hdrop]
    rfl
  | passthrough =>
    rw [Provided.compact,h.compactWithStrategy_eq X opts,keptBy_passthrough,hdrop]
    rfl

section
variable (X : Crates)

structure StoredFile where
  file : FileReader
  source : ArenaSource
  entries : List Entry
  loads : loadArenaSource X file = .ok source
  yields : Yields source entries
  ordered : Ordered entries

variable {X}

def contents (files : List (StoredFile X)) : List Entry :=
  (files.map StoredFile.entries).flatten

/-- No key twice among the files, and no more entries than fit a source. -/
structure Sound (files : List (StoredFile X)) : Prop where
  distinct : Distinct (contents files)
  small : totalBytes (contents files) < 2^32

/-- One job: some of the files are compacted with one of the strategies, or in shards with the
default one, and the result takes their place. A job that drops deletion marks must see what they
hide. -/
inductive Job (allowed : Provided → Prop) : List (StoredFile X) → List (StoredFile X) → Prop where
  | run {files picked rest : List (StoredFile X)} {out : StoredFile X} {p : Provided}
      {opts : CompactionOptions} :
      files.Perm (picked ++ rest) → allowed p →
      opts.sstBuilder.externalSstGlobalSeqno = none →
      p.compact X (picked.map StoredFile.source) opts = .ok out.file.contents →
      (p = .bottommost → Unburied (contents picked) (contents rest)) →
      Job allowed files (out :: rest)
  | runSharded {files picked rest outs : List (StoredFile X)} {numShards : Nat}
      {opts : CompactionOptions} :
      files.Perm (picked ++ rest) → allowed .bottommost →
      opts.sstBuilder.externalSstGlobalSeqno = none →
      (contents picked).length*numShards < 2^64 →
      compactSharded X (picked.map StoredFile.source) numShards opts =
        .ok (outs.map (fun out => out.file.contents)) →
      Unburied (contents picked) (contents rest) →
      Job allowed files (outs ++ rest)

theorem contents_append (files more : List (StoredFile X)) :
    contents (files ++ more) = contents files ++ contents more := by
  simp [contents]

theorem contents_perm {files files' : List (StoredFile X)} (h : files.Perm files') :
    (contents files).Perm (contents files') :=
  (h.map _).flatten

theorem ordered_sorted {es : List Entry} (h : Ordered es) : SortedEntries es :=
  h.sorted.imp (fun hab => by rw [hab]; simp)

theorem stored_inputs {files : List (StoredFile X)} (h : Distinct (contents files)) :
    Inputs (files.map StoredFile.source) (files.map StoredFile.entries) := by
  refine ⟨?_,fun l hl => ?_,h⟩
  · rw [List.forall₂_map_left_iff,List.forall₂_map_right_iff,List.forall₂_same]
    exact fun f _ => f.yields
  · obtain ⟨f,-,rfl⟩ := List.mem_map.mp hl
    exact ordered_sorted f.ordered

theorem loaded_fresh {reader : FileReader} {source : ArenaSource}
    (h : loadArenaSource X reader = .ok source) : source.Fresh := by
  rw [loadArenaSource_eq] at h
  obtain ⟨⟨fileBytes,ft,handles⟩,-,h⟩ := bind_eq_ok h
  obtain ⟨-,-,h⟩ := bind_eq_ok h
  cases h
  exact ofEntries_fresh _

theorem stored_fresh {files : List (StoredFile X)} (h : Distinct (contents files)) :
    FreshInputs (files.map StoredFile.source) (files.map StoredFile.entries) := by
  refine ⟨stored_inputs h,fun s hs => ?_⟩
  obtain ⟨f,-,rfl⟩ := List.mem_map.mp hs
  exact loaded_fresh f.loads

theorem StoredFile.entries_eq {out : StoredFile X} {opts : SstBuilderOptions} {es : List Entry}
    (hw : ∀ e ∈ es, WellFormed e.1) (hcap : totalBytes es < 2^32)
    (hext : opts.externalSstGlobalSeqno = none)
    (h : buildSst X opts es = .ok out.file.contents) : out.entries = es := by
  obtain ⟨bytes,hb,hload⟩ := buildSst_loads X opts hw hcap
  rw [h,Except.ok.injEq] at hb
  obtain ⟨source,hl,hy⟩ := hload out.file hb
  rw [written_none _ hext] at hy
  obtain rfl : source = out.source := Except.ok.inj (hl.symm.trans out.loads)
  exact out.yields.unique hy

theorem Sound.kept {picked : List (StoredFile X)} (h : Sound picked) (p : Provided) :
    Ordered (p.kept (mergedEntries (picked.map StoredFile.entries))) ∧
      totalBytes (p.kept (mergedEntries (picked.map StoredFile.entries))) < 2^32 := by
  have hsub := p.kept_sublist (mergedEntries (picked.map StoredFile.entries))
  have hle := totalBytes_sublist hsub
  rw [totalBytes_perm (mergedEntries_perm _)] at hle
  exact ⟨(mergedEntries_ordered h.distinct).sublist hsub,Nat.lt_of_le_of_lt hle h.small⟩

theorem job_entries {picked : List (StoredFile X)} {out : StoredFile X} {p : Provided}
    {opts : CompactionOptions} (h : Sound picked)
    (hext : opts.sstBuilder.externalSstGlobalSeqno = none)
    (hrun : p.compact X (picked.map StoredFile.source) opts = .ok out.file.contents) :
    out.entries = p.kept (mergedEntries (picked.map StoredFile.entries)) := by
  rw [(stored_inputs h.distinct).provided_eq X opts p] at hrun
  exact out.entries_eq (h.kept p).1.wf (h.kept p).2 hext hrun

def shardEntries (picked : List (StoredFile X)) (numShards : Nat) : List (List Entry) :=
  pieces (splitList userBelow) (boundaryKeys (picked.map StoredFile.entries) numShards)
    (bottommostKept (mergedEntries (picked.map StoredFile.entries)))

theorem shardEntries_flatten (picked : List (StoredFile X)) (numShards : Nat) :
    (shardEntries picked numShards).flatten =
      bottommostKept (mergedEntries (picked.map StoredFile.entries)) :=
  pieces_flatten ((ascending_of_sorted (mergedEntries_sorted _)).sublist List.filter_sublist) _

theorem sharded_built {picked : List (StoredFile X)} (h : Sound picked) {opts : CompactionOptions}
    (hext : opts.sstBuilder.externalSstGlobalSeqno = none) {numShards : Nat}
    (hfit : (contents picked).length*numShards < 2^64) : ∃ outs,
      compactSharded X (picked.map StoredFile.source) numShards opts = .ok outs ∧
      List.Forall₂ (fun bytes es => buildSst X opts.sstBuilder es = .ok bytes) outs
        (shardEntries picked numShards) := by
  have hfresh := stored_fresh h.distinct
  have hm : Mergeable (picked.map StoredFile.entries) := ⟨hfresh.inputs.sorted,h.distinct⟩
  have hcompacted : ∀ ls, compacted opts ls = bottommostKept (mergedEntries ls) :=
    fun ls => written_none _ hext _
  rw [shardEntries]
  by_cases hone : numShards ≤ 1 ∨ (picked.map StoredFile.source).isEmpty = true
  · obtain ⟨bytes,hb,-⟩ := buildSst_loads X opts.sstBuilder (h.kept .bottommost).1.wf
      (h.kept .bottommost).2
    have hc : compact X (picked.map StoredFile.source) opts = .ok bytes :=
      (hfresh.inputs.provided_eq X opts .bottommost).trans hb
    refine ⟨[bytes],by simp only [compactSharded,if_pos hone,hc,ok_bind,pure_eq_ok],?_⟩
    rw [boundaryKeys_nil hfresh hone]
    exact .cons hb .nil
  · have hne : picked.map StoredFile.source ≠ [] := fun hnil => hone (.inr (by rw [hnil]; rfl))
    obtain ⟨bs,hpick,hbs,hkeys⟩ := pickShardBoundaries_ok hfresh hne hfit
    obtain ⟨inputs,hinputs,hys⟩ := shardInputs_yields hbs hfresh
    rw [hkeys] at hys
    have hmerge := pieces_forall (splitFamily userBelow) (P:=Mergeable)
      (fun u ls hls => ⟨hls.filter _,hls.filter _⟩)
      (boundaryKeys (picked.map StoredFile.entries) numShards) hm
    obtain ⟨outs,houts,hfiles⟩ := mapM_forall₂
      (f:=fun shardSources => awaitTask X (compact X shardSources opts))
      (Q:=fun bytes ls => buildSst X opts.sstBuilder (compacted opts ls) = .ok bytes)
      (fun shardSources ls hls hy => by
        obtain ⟨hs,hd⟩ := hmerge ls hls
        have hin : Inputs shardSources ls := ⟨hy,hs,hd⟩
        obtain ⟨bytes,hc,-⟩ := hin.compact_fileOf X opts
        refine ⟨bytes,by rw [hc]; rfl,?_⟩
        rw [hcompacted,← hc]
        exact (hin.provided_eq X opts .bottommost).symm) hys
    refine ⟨outs,by simp only [compactSharded,if_neg hone,hpick,ok_bind,hinputs,houts],?_⟩
    rw [← hcompacted,← compacted_pieces opts _ hm]
    exact List.forall₂_map_right_iff.mpr hfiles

theorem shard_small {picked : List (StoredFile X)} (h : Sound picked) {numShards : Nat}
    {es : List Entry} (he : es ∈ shardEntries picked numShards) :
    Ordered es ∧ totalBytes es < 2^32 := by
  have hsub := List.sublist_flatten_of_mem he
  rw [shardEntries_flatten] at hsub
  have hkept := h.kept .bottommost
  exact ⟨hkept.1.sublist hsub,Nat.lt_of_le_of_lt (totalBytes_sublist hsub) hkept.2⟩

theorem sharded_entries {picked outs : List (StoredFile X)} {opts : CompactionOptions}
    (h : Sound picked) (hext : opts.sstBuilder.externalSstGlobalSeqno = none) {numShards : Nat}
    (hfit : (contents picked).length*numShards < 2^64)
    (hrun : compactSharded X (picked.map StoredFile.source) numShards opts =
      .ok (outs.map (fun out => out.file.contents))) :
    contents outs = bottommostKept (mergedEntries (picked.map StoredFile.entries)) := by
  obtain ⟨bytes,hb,hbuilt⟩ := sharded_built h hext hfit
  rw [hrun,Except.ok.injEq] at hb
  subst hb
  rw [List.forall₂_map_left_iff] at hbuilt
  rw [← shardEntries_flatten picked numShards,contents]
  congr 1
  have hboth := (List.forall₂_and_left _ _).mpr ⟨fun es he => shard_small h he,hbuilt.flip⟩
  have heq : List.Forall₂ (fun es out => es = StoredFile.entries out)
      (shardEntries picked numShards) outs :=
    hboth.imp (fun es out hh => (out.entries_eq hh.1.1.wf hh.1.2 hext hh.2).symm)
  rw [← List.forall₂_map_right_iff,List.forall₂_eq_eq_eq] at heq
  exact heq.symm

theorem Sound.sublist {files files' : List (StoredFile X)} (h : Sound files)
    (hs : (contents files').Sublist (contents files)) : Sound files' :=
  ⟨h.distinct.sublist hs,Nat.lt_of_le_of_lt (totalBytes_sublist hs) h.small⟩

theorem Sound.perm {files files' : List (StoredFile X)} (h : Sound files)
    (hp : files.Perm files') : Sound files' := by
  have hc := contents_perm hp
  exact ⟨h.distinct.perm hc,by rw [← totalBytes_perm hc]; exact h.small⟩

theorem Sound.of_kept {files files' : List (StoredFile X)} {p : Provided} {es rest : List Entry}
    (h : Sound files) (hp : (contents files).Perm (es ++ rest))
    (hc : contents files' = p.kept es ++ rest) : Sound files' := by
  have hsub : (contents files').Sublist (es ++ rest) := by
    rw [hc]
    exact (p.kept_sublist es).append_right rest
  have hle := totalBytes_sublist hsub
  rw [← totalBytes_perm hp] at hle
  exact ⟨(h.distinct.perm hp).sublist hsub,Nat.lt_of_le_of_lt hle h.small⟩

variable {allowed : Provided → Prop} {files files' : List (StoredFile X)}

/-- All a job does: of some of the entries it keeps what its strategy keeps. -/
theorem Job.spec (h : Job allowed files files') (hs : Sound files) :
    ∃ (p : Provided) (es rest : List Entry), allowed p ∧
      (contents files).Perm (es ++ rest) ∧ contents files' = p.kept es ++ rest ∧
      (p = .bottommost → Unburied es rest) := by
  have hperm : ∀ {picked rest : List (StoredFile X)}, files.Perm (picked ++ rest) →
      (contents files).Perm (mergedEntries (picked.map StoredFile.entries) ++ contents rest) := by
    intro picked rest hp
    refine (contents_perm hp).trans ?_
    rw [contents_append]
    exact (mergedEntries_perm _).symm.append_right _
  cases h with
  | @run picked rest out p opts hp ha hext hrun hsafe =>
    have hpicked : Sound picked := (hs.perm hp).sublist (by simp [contents_append])
    refine ⟨p,mergedEntries (picked.map StoredFile.entries),contents rest,ha,hperm hp,?_,
      fun hb => (unburied_perm (mergedEntries_perm _)).mpr (hsafe hb)⟩
    rw [← job_entries hpicked hext hrun]
    rfl
  | @runSharded picked rest outs numShards opts hp ha hext hfit hrun hsafe =>
    have hpicked : Sound picked := (hs.perm hp).sublist (by simp [contents_append])
    refine ⟨.bottommost,mergedEntries (picked.map StoredFile.entries),contents rest,ha,hperm hp,?_,
      fun _ => (unburied_perm (mergedEntries_perm _)).mpr hsafe⟩
    rw [contents_append,sharded_entries hpicked hext hfit hrun]
    rfl

theorem Job.sound (h : Job allowed files files') (hs : Sound files) : Sound files' := by
  obtain ⟨p,es,rest,-,hp,hc,-⟩ := h.spec hs
  exact hs.of_kept hp hc

theorem Job.part {visible : Nat → Bool} (h : Job allowed files files') (hs : Sound files)
    (hv : ∀ p, allowed p → p.Serves visible) :
    Part visible (contents files') (contents files) := by
  obtain ⟨p,es,rest,ha,hp,hc,-⟩ := h.spec hs
  rw [hc]
  exact ((Provided.kept_part (hv p ha) es).append rest).trans
    (Part.of_mem (fun e => hp.symm.mem_iff))

theorem Job.bottommost (h : Job allowed files files') (hs : Sound files) (e : Entry) :
    e ∈ bottommostKept (contents files') ↔ e ∈ bottommostKept (contents files) := by
  obtain ⟨p,es,rest,-,hp,hc,hsafe⟩ := h.spec hs
  have hd := hs.distinct.perm hp
  rw [hc,mem_bottommostKept_perm hp]
  cases p with
  | bottommost => exact (bottommost_staged hd).mpr (hsafe rfl) e
  | snapshotAware s =>
    exact ((Provided.kept_part (p:=.snapshotAware s) (.inl rfl) es).append rest).bottommost hd e
  | passthrough => exact Iff.rfl

def Run (allowed : Provided → Prop) : List (StoredFile X) → List (StoredFile X) → Prop :=
  Relation.ReflTransGen (Job allowed)

theorem Run.sound (h : Run allowed files files') (hs : Sound files) : Sound files' := by
  induction h with
  | refl => exact hs
  | tail _ hj ih => exact hj.sound ih

theorem Run.part {visible : Nat → Bool} (h : Run allowed files files') (hs : Sound files)
    (hv : ∀ p, allowed p → p.Serves visible) :
    Part visible (contents files') (contents files) := by
  induction h with
  | refl => exact Part.of_mem (fun e => Iff.rfl)
  | tail hr hj ih => exact (hj.part (Run.sound hr hs) hv).trans ih

theorem Run.bottommost (h : Run allowed files files') (hs : Sound files) (e : Entry) :
    e ∈ bottommostKept (contents files') ↔ e ∈ bottommostKept (contents files) := by
  induction h with
  | refl => exact Iff.rfl
  | tail hr hj ih => exact (hj.bottommost (Run.sound hr hs) e).trans ih

def ShortNames (opts : SstBuilderOptions) : Prop :=
  (strBytes opts.comparatorName).length+(strBytes opts.columnFamilyName).length < 2^50

theorem stored_buildSst (X : Crates) {opts : SstBuilderOptions} (ho : ShortNames opts)
    (hext : opts.externalSstGlobalSeqno = none) (es : List Entry) (he : Ordered es)
    (hcap : totalBytes es < 2^32) :
    ∃ out : StoredFile X, out.entries = es ∧ buildSst X opts es = .ok out.file.contents := by
  have hlen := length_le_totalBytes he.wf
  obtain ⟨reader,hreader⟩ := buildSst_opens X opts (writtenEntries_none opts hext es) (by
    rw [ShortNames] at ho
    omega)
  obtain ⟨bytes,hb,hload⟩ := buildSst_loads X opts he.wf hcap
  rw [hreader,Except.ok.injEq] at hb
  obtain ⟨source,hl,hy⟩ := hload reader hb
  rw [written_none _ hext] at hy
  exact ⟨⟨reader,source,es,hl,hy,he⟩,rfl,hreader⟩

variable (allowed) in
theorem Sound.next (picked rest : List (StoredFile X)) (hs : Sound files)
    (hp : files.Perm (picked ++ rest)) (p : Provided) {opts : CompactionOptions}
    (ho : ShortNames opts.sstBuilder)
    (hext : opts.sstBuilder.externalSstGlobalSeqno = none) :
    ∃ out : StoredFile X,
      p.compact X (picked.map StoredFile.source) opts = .ok out.file.contents ∧
      (allowed p → (p = .bottommost → Unburied (contents picked) (contents rest)) →
        Job allowed files (out :: rest)) := by
  have hs' : Sound picked := (hs.perm hp).sublist (by simp [contents_append])
  obtain ⟨out,-,hb⟩ := stored_buildSst X ho hext _ (hs'.kept p).1 (hs'.kept p).2
  rw [← (stored_inputs hs'.distinct).provided_eq X opts p] at hb
  exact ⟨out,hb,fun ha hsafe => .run hp ha hext hb hsafe⟩

end

end SstCompactor
