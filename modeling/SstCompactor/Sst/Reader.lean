import SstCompactor.Format.Block
import SstCompactor.Format.Properties

set_option autoImplicit false

namespace SstCompactor

/-- An open file. Its contents are handed out in vectors, so they are shorter than 2^63. -/
structure FileReader where
  contents : Bytes
  length_lt : contents.length < 2^63

def FileReader.fileSize (reader : FileReader) : UInt64 := UInt64.ofNat reader.contents.length

theorem FileReader.fileSize_toNat (reader : FileReader) :
    reader.fileSize.toNat = reader.contents.length := by
  have hlt := reader.length_lt
  exact toNat_ofNat64 (by omega)

/-- The bytes from `offset` to `offset + len`, when the file has them all. That it is an error
otherwise is an assumption on the reader: the one of this repository asks for `len` bytes of memory
before it reads, and panics above `isize::MAX`. -/
def FileReader.readAt (reader : FileReader) (offset len : Nat) : Except String Bytes :=
  match getRange reader.contents offset (offset+len) with
  | some bytes => .ok bytes
  | none => .error "failed to fill whole buffer"

/-- `map_err(|e| format!("{heading}{e}"))?`. -/
def ioResult (heading : String) (r : Except String Bytes) : Exec Bytes :=
  match r with
  | .ok bytes => .ok bytes
  | .error e => .error (.err (heading ++ e))

def visitBlocks (fetch : BlockHandle → Exec Bytes) : List BlockHandle → List Entry × Exec Unit
  | [] => ([],.ok ())
  | handle :: handles =>
    match fetch handle >>= parseBlock with
    | .error e => ([],.error e)
    | .ok parsed =>
      match forEachEntry parsed with
      | (es,.error e) => (es,.error e)
      | (es,.ok ()) =>
        let rest := visitBlocks fetch handles
        (es ++ rest.1,rest.2)

def dataHandles (index : ParsedBlock) : Exec (List BlockHandle) := do
  let (listed,outcome) := forEachIndexEntry index
  outcome
  pure (listed.map Prod.snd)

structure SstReader where
  reader : FileReader
  footer : Footer
  metaindex : ParsedBlock
  index : ParsedBlock

section
variable (X : Crates)

def readFooter (reader : FileReader) : Exec Footer := do
  let fileSize := reader.fileSize
  if fileSize.toNat < footerTailLen then
    throw (.err "file too short to contain a footer")
  let tailOffset := fileSize.toNat-footerTailLen
  let tail ← ioResult "failed to read footer tail: " (reader.readAt tailOffset footerTailLen)
  decodeFooter X tail fileSize

def readBlockContents (reader : FileReader) (checksumType : ChecksumType)
    (baseContextChecksum : UInt32) (handle : BlockHandle) : Exec Bytes := do
  let len ← blockReadLen handle
  let rawWithTrailer ← ioResult
    ("failed to read block at offset " ++ toString handle.offset ++ ": ")
    (reader.readAt handle.offset.toNat len)
  decodeBlockContents X rawWithTrailer handle checksumType baseContextChecksum

def decodeMetaValueHandle (value : Bytes) : Option BlockHandle :=
  (decodeBlockHandle value 0).map Prod.fst

namespace SstReader

def findMetaHandle (metaindex : ParsedBlock) (name : String) : Exec (Option BlockHandle) := do
  let (listed,outcome) := forEachEntry metaindex
  outcome
  pure (listed.findSome? (fun e =>
    if e.1 = strBytes name then decodeMetaValueHandle e.2 else none))

def openSst (reader : FileReader) : Exec SstReader := do
  let ft ← readFooter X reader
  let fetch := readBlockContents X reader ft.checksumType ft.baseContextChecksum
  let metaindexRaw ← fetch ft.metaindexHandle
  let metaindex ← parseBlock metaindexRaw
  let indexHandle ← match ft.indexHandle with
    | some h => pure h
    | none => do
        let found ← findMetaHandle metaindex indexBlockName
        okOr found "index block handle missing from metaindex"
  let indexRaw ← fetch indexHandle
  let index ← parseBlock indexRaw
  pure ⟨reader,ft,metaindex,index⟩

def findMetaBlockHandle (r : SstReader) (name : String) : Exec (Option BlockHandle) :=
  findMetaHandle r.metaindex name

def forEachEntry (r : SstReader) : List Entry × Exec Unit :=
  match dataHandles r.index with
  | .error e => ([],.error e)
  | .ok handles =>
    visitBlocks (readBlockContents X r.reader r.footer.checksumType
      r.footer.baseContextChecksum) handles

end SstReader

def decodeSst (reader : FileReader) : Exec (List Entry) := do
  let r ← SstReader.openSst X reader
  let (es,outcome) := r.forEachEntry X
  outcome
  pure es

end

end SstCompactor
