import SstCompactor.Compaction.Load
import SstCompactor.Format.IndexDelta

/-!
Index blocks of the format versions that `decode_footer` accepts. From version 4 on an index
entry has its handle, or the difference to the one before it, right behind its key; before
that it is a record like those of a data block. `load_arena_source` knows one of the two.
-/

set_option autoImplicit false

namespace SstCompactor
open FixedWidth

section
variable (X : Crates)

/-- `load_arena_source` up to the contents of the index block. -/
def openIndex (reader : FileReader) : Exec (Bytes × Footer × Bytes) := do
  let fileSize := reader.fileSize
  let fileBytes ← ioResult "failed to read whole file: " (reader.readAt 0 fileSize.toNat)
  let tailStart ← checkedSub fileBytes.length footerTailLen
  let tail ← slice fileBytes tailStart fileBytes.length
  let ft ← decodeFooter X tail fileSize
  let metaindexRaw ← decodeBlockInMemory X fileBytes ft ft.metaindexHandle
  let metaindex ← parseBlock metaindexRaw
  let indexHandle ← match ft.indexHandle with
    | some h => pure h
    | none => do
        let found ← findMetaHandle metaindex "rocksdb.index"
        okOr found "index block handle missing from metaindex"
  let indexRaw ← decodeBlockInMemory X fileBytes ft indexHandle
  pure (fileBytes,ft,indexRaw)

def loadHandles (reader : FileReader) : Exec (Bytes × Footer × List BlockHandle) := do
  let (fileBytes,ft,indexRaw) ← openIndex X reader
  let index ← parseBlock indexRaw
  let handles ← dataHandles index
  pure (fileBytes,ft,handles)

/-- Nothing between the footer and the data blocks depends on the version. -/
theorem loadArenaSource_eq (reader : FileReader) : loadArenaSource X reader = (do
    let (fileBytes,ft,handles) ← loadHandles X reader
    let (es,outcome) := visitBlocks (decodeBlockInMemory X fileBytes ft) handles
    outcome
    pure (ArenaSource.ofEntries es)) := by
  simp only [loadArenaSource,loadHandles,openIndex,bind_assoc,pure_bind]
  refine bind_congr (fun fileBytes => bind_congr (fun _ => bind_congr (fun _ => ?_)))
  refine bind_congr (fun ft => bind_congr (fun _ => bind_congr (fun metaindex => ?_)))
  cases ft.indexHandle with
  | some h => simp only [bind_assoc,pure_bind]
  | none => simp only [bind_assoc,pure_bind]

theorem loadHandles_opened {reader : FileReader} {fileBytes raw : Bytes} {ft : Footer}
    (h : openIndex X reader = .ok (fileBytes,ft,raw)) :
    loadHandles X reader = (parseBlock raw >>= dataHandles) >>= fun handles =>
      pure (fileBytes,ft,handles) := by
  simp only [loadHandles,h,ok_bind,bind_assoc]

inductive WrittenIndex : Nat → List (Bytes × BlockHandle) → Bytes → Prop where
  | delta {version r : Nat} {hs : List (Bytes × BlockHandle)} {b₀ b : IndexBlockBuilder} :
      4 ≤ version → IndexBlockBuilder.new r = .ok b₀ →
      hs.foldlM (fun b e => b.add e.1 e.2) b₀ = .ok b →
      -- A difference of sizes stands for the block right behind the one before it.
      b₀.Follows hs → WrittenIndex version hs b.finish
  | plain {version r : Nat} {hs : List (Bytes × BlockHandle)} {b₀ b : BlockBuilder} :
      version < 4 → BlockBuilder.new r = .ok b₀ →
      (hs.map (fun e => (e.1,metaValue e.2))).foldlM BlockBuilder.add b₀ = .ok b →
      WrittenIndex version hs b.finish

/-- Every index block of that version, short enough for the `u32` fields of its restart array,
gives its handles back in every file it is in. -/
def ReadsVersion (version : Nat) : Prop :=
  ∀ hs raw, WrittenIndex version hs raw → raw.length < 2^32 →
    ∀ reader fileBytes ft, openIndex X reader = .ok (fileBytes,ft,raw) →
      ft.formatVersion = version →
      loadHandles X reader = .ok (fileBytes,ft,hs.map Prod.snd)

theorem readsVersion_of_delta {version : Nat} (h : 4 ≤ version) : ReadsVersion X version := by
  intro hs raw hw hl reader fileBytes ft hopen hv
  cases hw with
  | plain hlt _ _ => omega
  | delta _ hnew hadd hf =>
    obtain ⟨parsed,hp,hread⟩ := IndexBlockBuilder.finish_reads hnew hadd hf hl
    rw [loadHandles_opened X hopen,hp,ok_bind,dataHandles,hread]
    rfl

end

def oneHandle : List (Bytes × BlockHandle) := [([97,1,1,0,0,0,0,0,0],⟨0,30⟩)]

def plainIndex : Bytes :=
  (BlockBuilder.ofEntries 1 (oneHandle.map (fun e => (e.1,metaValue e.2)))).finish

def plainFile (version : Nat) : Bytes :=
  (blockImage [] [0] ++ List.replicate 5 0) ++ (plainIndex ++ List.replicate 5 0) ++
    ([0] ++ metaValue ⟨0,8⟩ ++ metaValue ⟨13,22⟩ ++ List.replicate 36 0 ++ leBytes 4 version ++
      leBytes 8 blockBasedTableMagic)

theorem plainFile_length (version : Nat) : (plainFile version).length = 93 := by
  simp only [plainFile,List.length_append,leBytes_length]
  decide

def plainReader (version : Nat) : FileReader where
  contents := plainFile version
  length_lt := by rw [plainFile_length]; decide

def plainFileFooter (version : Nat) : Footer :=
  ⟨blockBasedTableMagic,version,.noChecksum,⟨0,8⟩,some ⟨13,22⟩,5,0⟩

theorem plainIndex_written {version : Nat} (h : version < 4) :
    WrittenIndex version oneHandle plainIndex := by
  refine .plain (r:=1) h rfl ?_
  rfl

theorem plainIndex_length : plainIndex.length = 22 := by decide

/-- The length of the value, taken for the first byte of the key, shifts all that follows. -/
theorem plainIndex_misread : (parseBlock plainIndex >>= dataHandles) =
    .error (.err "truncated index entry: non_shared_bytes") := by decide

theorem plainFile_opens (X : Crates) {v : Nat} (h : 2 ≤ v ∧ v < 4) :
    openIndex X (plainReader v) = .ok (plainFile v,plainFileFooter v,plainIndex) := by
  obtain rfl | rfl : v = 2 ∨ v = 3 := by omega
  · rfl
  · rfl

theorem plainFile_misread (X : Crates) {v : Nat} (h : 2 ≤ v ∧ v < 4) :
    loadHandles X (plainReader v) =
      .error (.err "truncated index entry: non_shared_bytes") := by
  rw [loadHandles_opened X (plainFile_opens X h),plainIndex_misread,error_bind]

theorem not_readsVersion (X : Crates) {v : Nat} (h : 2 ≤ v ∧ v < 4) : ¬ ReadsVersion X v := by
  intro hr
  have hok := hr oneHandle plainIndex (plainIndex_written h.2) (by rw [plainIndex_length]; decide)
    (plainReader v) (plainFile v) (plainFileFooter v) (plainFile_opens X h) rfl
  rw [plainFile_misread X h] at hok
  contradiction

/-- A version is read with its own index layout if it is 4 or later. -/
theorem readsVersion_iff (X : Crates) {v : Nat} (h : 2 ≤ v ∧ v ≤ 7) :
    ReadsVersion X v ↔ 4 ≤ v := by
  refine ⟨fun hr => ?_,readsVersion_of_delta X⟩
  by_contra hlt
  exact not_readsVersion X ⟨h.1,by omega⟩ hr

theorem readsVersion_seven : (2 ≤ 7 ∧ 7 ≤ 7) ∧ (ReadsVersion .idle 7 ↔ 4 ≤ 7) :=
  ⟨by decide,readsVersion_iff .idle (by decide)⟩

theorem version_two_misread :
    WrittenIndex 2 oneHandle plainIndex ∧ plainIndex.length < 2^32 ∧
    openIndex .idle (plainReader 2) = .ok (plainFile 2,plainFileFooter 2,plainIndex) ∧
    loadHandles .idle (plainReader 2) = .error (.err "truncated index entry: non_shared_bytes") ∧
    ¬ ReadsVersion .idle 2 :=
  ⟨plainIndex_written (by decide),by rw [plainIndex_length]; decide,
    plainFile_opens .idle (by decide),plainFile_misread .idle (by decide),
    not_readsVersion .idle (by decide)⟩

end SstCompactor
