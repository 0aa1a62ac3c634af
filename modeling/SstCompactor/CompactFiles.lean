import SstCompactor.Compaction.Jobs

set_option autoImplicit false

namespace SstCompactor
namespace CompactFiles

abbrev Files := String → Option FileReader

/-- What is asked of the operating system. A path stands for its file: no file has two of them, as
it would by a link or by `./a` beside `a`, so writing to one path changes what no other reads. -/
structure Os where
  openError : Files → String → String
  write : Files → String → Bytes → Except String Unit × Files
  write_ok : ∀ files path bytes, (write files path bytes).1 = .ok () →
    ∃ file : FileReader, (write files path bytes).2 path = some file ∧ file.contents = bytes
  write_other : ∀ files path bytes other, other ≠ path →
    (write files path bytes).2 other = files other

inductive Exit where
  | success (stdout : String)
  | failure (stderr : String)
  | panicked (fault : Fault)
  deriving DecidableEq

/-- `char::is_whitespace`. -/
def isWhitespace (c : Char) : Bool :=
  let n := c.toNat
  (9 ≤ n && n ≤ 13) || n == 0x20 || n == 0x85 || n == 0xa0 || n == 0x1680 ||
    (0x2000 ≤ n && n ≤ 0x200a) || n == 0x2028 || n == 0x2029 || n == 0x202f || n == 0x205f ||
    n == 0x3000

/-- `str::lines`, where `line` is what has been read of the first one. -/
def linesFrom (line : List Char) : List Char → List (List Char)
  | [] => if line.isEmpty then [] else [line]
  | c :: cs =>
    if c = '\n' then
      (if line.getLast? = some '\r' then line.dropLast else line) :: linesFrom [] cs
    else linesFrom (line ++ [c]) cs

/-- `str::trim`. -/
def trim (cs : List Char) : List Char :=
  ((cs.dropWhile isWhitespace).reverse.dropWhile isWhitespace).reverse

def listedPaths (text : String) : List String :=
  (((linesFrom [] text.toList).map trim).filter (fun cs => !cs.isEmpty)).map String.ofList

def usage : String :=
  "usage: compact_files [--for-ingest] <output.sst> <input1.sst> [input2.sst ...]\n" ++
  "   or: compact_files [--for-ingest] <output.sst> --list <path-list-file>"

section
variable (X : Crates) (S : Os) (files : Files)

/-- `std::fs::read_to_string`. -/
def readToString (path : String) : Except String String :=
  match files path with
  | none => .error (S.openError files path)
  | some file =>
    match String.fromUTF8? ⟨file.contents.toArray⟩ with
    | none => .error "stream did not contain valid UTF-8"
    | some text => .ok text

def inputPaths (args : List String) : Except Exit (List String) :=
  if args[2]? = some "--list" then
    match args[3]? with
    | none => .error (.failure "--list requires a path-list file argument")
    | some listPath =>
      match readToString S files listPath with
      | .error e => .error (.failure ("failed to read " ++ listPath ++ ": " ++ e))
      | .ok text => .ok (listedPaths text)
  else .ok (args.drop 2)

def loadInput (path : String) : Except Exit ArenaSource :=
  match files path with
  | none => .error (.failure ("failed to open " ++ path ++ ": " ++ S.openError files path))
  | some file =>
    match loadArenaSource X file with
    | .ok source => .ok source
    | .error (.err e) => .error (.failure ("failed to load " ++ path ++ ": " ++ e))
    | .error fault => .error (.panicked fault)

def options (forIngest : Bool) : CompactionOptions :=
  ⟨{ baseContextChecksum := 0x42424242
     externalSstGlobalSeqno := if forIngest then some 0 else none }⟩

/-- Everything up to the writing of the output: its path, its bytes and the number of inputs. -/
def prepare (args : List String) : Except Exit (String × Bytes × Nat) := do
  let forIngest := args.contains "--for-ingest"
  let args := args.erase "--for-ingest"
  if args.length < 3 then
    throw (.failure usage)
  let outputPath := args.getD 1 ""
  let paths ← inputPaths S files args
  let sources ← paths.mapM (loadInput X S files)
  match compact X sources (options forIngest) with
  | .ok outputBytes => pure (outputPath,outputBytes,paths.length)
  | .error (.err e) => throw (.failure ("compaction failed: " ++ e))
  | .error fault => throw (.panicked fault)

def run (args : List String) : Exit × Files :=
  match prepare X S files args with
  | .error exit => (exit,files)
  | .ok (outputPath,outputBytes,inputs) =>
    match S.write files outputPath outputBytes with
    | (.error e,files') => (.failure ("failed to write " ++ outputPath ++ ": " ++ e),files')
    | (.ok (),files') =>
      (.success ("wrote " ++ toString outputBytes.length ++ " bytes to " ++ outputPath ++
        " from " ++ toString inputs ++ " input SSTs"),files')

end

def Blank (cs : List Char) : Prop := ∀ c ∈ cs, isWhitespace c = true ∧ c ≠ '\n'

instance (cs : List Char) : Decidable (Blank cs) :=
  List.decidableBAll (fun c => isWhitespace c = true ∧ c ≠ '\n') cs

structure Listable (path : List Char) : Prop where
  nonempty : path ≠ []
  oneLine : '\n' ∉ path
  front : ∀ c, path.head? = some c → isWhitespace c = false
  back : ∀ c, path.getLast? = some c → isWhitespace c = false

/-- A text that lists the paths, one in a line, with blanks around them and empty lines between. -/
inductive Lists : List Char → List (List Char) → Prop where
  | blank {ws : List Char} : Blank ws → Lists ws []
  | last {ws path ws' : List Char} : Blank ws → Listable path → Blank ws' →
      Lists (ws ++ path ++ ws') [path]
  | skip {ws text : List Char} {paths : List (List Char)} : Blank ws → Lists text paths →
      Lists (ws ++ '\n' :: text) paths
  | line {ws path ws' text : List Char} {paths : List (List Char)} : Blank ws → Listable path →
      Blank ws' → Lists text paths → Lists (ws ++ path ++ ws' ++ '\n' :: text) (path :: paths)

theorem linesFrom_line (line : List Char) {l : List Char} (h : '\n' ∉ l) (text : List Char) :
    linesFrom line (l ++ '\n' :: text) =
      (if (line ++ l).getLast? = some '\r' then (line ++ l).dropLast else line ++ l) ::
        linesFrom [] text := by
  induction l generalizing line with
  | nil => simp [linesFrom]
  | cons c l ih =>
    have hc : ¬ c = '\n' := fun heq => h (by simp [heq])
    have hrest := ih (line ++ [c]) (fun hmem => h (by simp [hmem]))
    rw [List.cons_append,linesFrom,if_neg hc,hrest,List.append_assoc]
    rfl

theorem linesFrom_last (line : List Char) {l : List Char} (h : '\n' ∉ l) :
    linesFrom line l = if (line ++ l).isEmpty then [] else [line ++ l] := by
  induction l generalizing line with
  | nil => simp [linesFrom]
  | cons c l ih =>
    have hc : ¬ c = '\n' := fun heq => h (by simp [heq])
    have hrest := ih (line ++ [c]) (fun hmem => h (by simp [hmem]))
    rw [linesFrom,if_neg hc,hrest,List.append_assoc]
    rfl

theorem dropWhile_none {α : Type} {p : α → Bool} {xs : List α}
    (h : ∀ x, xs.head? = some x → p x = false) : xs.dropWhile p = xs := by
  cases xs with
  | nil => rfl
  | cons x xs => rw [List.dropWhile_cons_of_neg (by simp [h x rfl])]

theorem trim_blank {ws : List Char} (h : Blank ws) : trim ws = [] := by
  have hd := @List.dropWhile_append_of_pos _ isWhitespace _ [] (fun c hc => (h c hc).1)
  rw [List.append_nil] at hd
  rw [trim,hd]
  rfl

theorem trim_around {ws path ws' : List Char} (h : Blank ws) (hp : Listable path)
    (h' : Blank ws') : trim (ws ++ path ++ ws') = path := by
  have hfront : (ws ++ (path ++ ws')).dropWhile isWhitespace = path ++ ws' := by
    rw [List.dropWhile_append_of_pos (fun c hc => (h c hc).1)]
    refine dropWhile_none (fun c hc => hp.front c ?_)
    rwa [List.head?_append_of_ne_nil _ hp.nonempty] at hc
  have hback : (ws'.reverse ++ path.reverse).dropWhile isWhitespace = path.reverse := by
    rw [List.dropWhile_append_of_pos (fun c hc => (h' c (List.mem_reverse.mp hc)).1)]
    refine dropWhile_none (fun c hc => hp.back c ?_)
    rwa [List.head?_reverse] at hc
  rw [trim,List.append_assoc,hfront,List.reverse_append,hback,List.reverse_reverse]

theorem trim_snoc (l : List Char) {c : Char} (hc : isWhitespace c = true) :
    trim (l ++ [c]) = trim l := by
  have hdrop : (l ++ [c]).dropWhile isWhitespace =
      if (l.dropWhile isWhitespace).isEmpty then [] else l.dropWhile isWhitespace ++ [c] := by
    rw [List.dropWhile_append]
    simp [hc]
  rw [trim,hdrop,trim]
  split
  · rename_i hempty
    rw [List.isEmpty_iff.mp hempty]
  · rw [List.reverse_append,List.reverse_singleton,List.singleton_append,
      List.dropWhile_cons_of_pos hc]

theorem trim_line (l : List Char) :
    trim (if l.getLast? = some '\r' then l.dropLast else l) = trim l := by
  split
  · rename_i hlast
    obtain ⟨l',rfl⟩ := List.getLast?_eq_some_iff.mp hlast
    rw [List.dropLast_concat,trim_snoc l' (by decide)]
  · rfl

theorem blank_oneLine {ws : List Char} (h : Blank ws) : '\n' ∉ ws := fun hc => (h _ hc).2 rfl

theorem around_oneLine {ws path ws' : List Char} (h : Blank ws) (hp : Listable path)
    (h' : Blank ws') : '\n' ∉ ws ++ path ++ ws' := by
  simp only [List.mem_append,not_or]
  exact ⟨⟨blank_oneLine h,hp.oneLine⟩,blank_oneLine h'⟩

/-- Reading a list gives the paths that are listed. -/
theorem lists_read {text : List Char} {paths : List (List Char)} (h : Lists text paths) :
    ((linesFrom [] text).map trim).filter (fun cs => !cs.isEmpty) = paths := by
  induction h with
  | blank hws =>
    rw [linesFrom_last [] (blank_oneLine hws)]
    split
    · rfl
    · simp [trim_blank hws]
  | last hws hp hws' =>
    rw [linesFrom_last [] (around_oneLine hws hp hws'),List.nil_append,
      if_neg (by simp [hp.nonempty]),List.map_cons,trim_around hws hp hws']
    simp [hp.nonempty]
  | skip hws _ ih =>
    rw [linesFrom_line [] (blank_oneLine hws)]
    simp [trim_line,trim_blank hws,ih]
  | line hws hp hws' _ ih =>
    rw [linesFrom_line [] (around_oneLine hws hp hws'),List.nil_append]
    simp only [List.map_cons,trim_line,trim_around hws hp hws']
    rw [List.filter_cons_of_pos (by simpa using hp.nonempty),ih]

theorem readToString_text {S : Os} {files : Files} {path text : String} {file : FileReader}
    (hf : files path = some file) (ht : file.contents = strBytes text) :
    readToString S files path = .ok text := by
  have hbytes : (⟨file.contents.toArray⟩ : ByteArray) = text.toByteArray := by
    rw [ht,strBytes,Array.toArray_toList]
    rfl
  rw [readToString,hf]
  simp only [hbytes,String.fromUTF8?,text.isValidUTF8,dif_pos,String.fromUTF8]

theorem prepare_inputs {X : Crates} {S : Os} {files : Files} {args paths : List String}
    (hlen : 3 ≤ (args.erase "--for-ingest").length)
    (hin : inputPaths S files (args.erase "--for-ingest") = .ok paths) :
    prepare X S files args = (do
      let sources ← paths.mapM (loadInput X S files)
      match compact X sources (options (args.contains "--for-ingest")) with
      | .ok outputBytes =>
        pure ((args.erase "--for-ingest").getD 1 "",outputBytes,paths.length)
      | .error (.err e) => throw (.failure ("compaction failed: " ++ e))
      | .error fault => throw (.panicked fault)) := by
  rw [prepare]
  simp only [Nat.not_lt.mpr hlen,if_false,hin]
  rfl

/-- A list file stands for its paths, however they are spaced: the tool does with it what it does
with the paths as arguments. -/
theorem list_file_run (X : Crates) (S : Os) (files : Files) {args args' more paths : List String}
    {prog out listPath text : String} {file : FileReader}
    (hargs : args.erase "--for-ingest" = prog :: out :: "--list" :: listPath :: more)
    (hargs' : args'.erase "--for-ingest" = prog :: out :: paths)
    (hflag : args.contains "--for-ingest" = args'.contains "--for-ingest")
    (hfile : files listPath = some file) (htext : file.contents = strBytes text)
    (hlists : Lists text.toList (paths.map String.toList)) (hne : paths ≠ [])
    (hhead : paths.head? ≠ some "--list") : run X S files args = run X S files args' := by
  have hlisted : listedPaths text = paths := by
    rw [listedPaths,lists_read hlists,List.map_map]
    simp [Function.comp_def]
  have hin : inputPaths S files (args.erase "--for-ingest") = .ok paths := by
    rw [hargs,inputPaths]
    simp [readToString_text hfile htext,hlisted]
  have hin' : inputPaths S files (args'.erase "--for-ingest") = .ok paths := by
    have hthird : (prog :: out :: paths)[2]? = paths.head? := by
      cases paths <;> rfl
    rw [hargs',inputPaths,hthird,if_neg hhead]
    rfl
  have hlen : 3 ≤ (args.erase "--for-ingest").length := by
    rw [hargs]
    simp
  have hlen' : 3 ≤ (args'.erase "--for-ingest").length := by
    have hpos := List.length_pos_iff.mpr hne
    rw [hargs']
    simp only [List.length_cons]
    omega
  rw [run,run,prepare_inputs hlen hin,prepare_inputs hlen' hin',hflag,hargs,hargs']
  rfl

def memory : Os where
  openError _ _ := "No such file or directory (os error 2)"
  write files path bytes :=
    if h : bytes.length < 2^63 then
      (.ok (),fun other => if other = path then some ⟨bytes,h⟩ else files other)
    else (.error "File too large (os error 27)",files)
  write_ok files path bytes := by
    split
    · exact fun _ => ⟨_,if_pos rfl,rfl⟩
    · intro h
      cases h
  write_other files path bytes other hne := by
    split
    · exact if_neg hne
    · rfl

def spacedList : String := " a.sst\r\n\n\tb.sst"

theorem spacedList_lists : Lists spacedList.toList ["a.sst".toList,"b.sst".toList] := by
  have hpath : Listable "b.sst".toList :=
    ⟨by decide,by decide,by rintro c ⟨⟩; rfl,by rintro c ⟨⟩; rfl⟩
  have hpath' : Listable "a.sst".toList :=
    ⟨by decide,by decide,by rintro c ⟨⟩; rfl,by rintro c ⟨⟩; rfl⟩
  have hlast : Lists (['\t'] ++ "b.sst".toList ++ []) ["b.sst".toList] :=
    .last (by decide) hpath (by decide)
  have hskip := Lists.skip (show Blank [] by decide) hlast
  have hline : Lists ([' '] ++ "a.sst".toList ++ ['\r'] ++ '\n' :: ([] ++ '\n' ::
      (['\t'] ++ "b.sst".toList ++ []))) _ :=
    .line (by decide) hpath' (by decide) hskip
  exact hline

def listed : Files := fun path =>
  if path = "paths" then some ⟨strBytes spacedList,by decide⟩ else none

theorem list_file_run_spaced :
    run .idle memory listed ["compact_files","out.sst","--for-ingest","--list","paths"] =
      run .idle memory listed ["compact_files","out.sst","a.sst","b.sst","--for-ingest"] :=
  list_file_run .idle memory listed
    (show ["compact_files","out.sst","--for-ingest","--list","paths"].erase "--for-ingest" =
      "compact_files" :: "out.sst" :: "--list" :: "paths" :: [] by decide)
    (show ["compact_files","out.sst","a.sst","b.sst","--for-ingest"].erase "--for-ingest" =
      "compact_files" :: "out.sst" :: ["a.sst","b.sst"] by decide)
    (by decide) rfl rfl spacedList_lists (by decide) (by decide)

end CompactFiles
end SstCompactor
