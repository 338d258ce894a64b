import Mathlib.Logic.Function.Basic
import Ztreamer.Replicator.RangeMetaFill

/-! # Exports of a snapshot

    An export writes the sealed ranges of an index as a snapshot directory. Each file
    is written to a temporary file, which is then renamed. An export writes the range
    files, then the manifest, then its signature, then `latest.json`. It skips a range
    file that is present with the length of its entry.

    An export is a program in atomic steps: each is one transaction on the index or one
    operation on the directory. The index may change between two of them.

    * `SnapshotWriter`: the writes of an export,
    * `SnapshotExport.run`: one export,
    * `ExportSystem`: exports one after the other, each of which may stop at any time,
    * `SafeFiles`: what the files of the directory are in every state,
    * `snapshot_directory_safe`: `latest.json` points at files that are present and valid.

    JSON and signatures are arbitrary functions. The operating system refuses a file
    operation where the export stops.
-/

namespace Ztreamer

open Octets Result Atomic Relation

variable {κ ν : Type}

/-! ## Paths -/

/-- A time in UTC. A leap second has `nanosecond` above `10 ^ 9`. -/
structure DateTime where
  second : Int
  nanosecond : Nat
  deriving DecidableEq

/-- The path of a manifest, `manifests/<time>.json`. -/
structure ManifestPath where
  publishedAt : DateTime
  deriving DecidableEq

/-- The path removes the parts of a second. -/
def ManifestPath.of (time : DateTime) : ManifestPath :=
  ⟨{ time with nanosecond := time.nanosecond - time.nanosecond % 10 ^ 9 }⟩

/-- The path of the blob of a range, `ranges/<start>-<digest>.bin` with the first 4 bytes
    of the digest. -/
structure RangePath where
  start : U32
  digestStart : ByteVec 4
  deriving DecidableEq

def RangePath.of (entry : ManifestEntry ν) : RangePath :=
  ⟨entry.startHeight, ⟨entry.blobDigest.val.take 4, by simp⟩⟩

/-- The files of a snapshot directory. -/
inductive SnapshotFile where
  | latest
  | manifest (path : ManifestPath)
  | signature (path : ManifestPath)
  | range (path : RangePath)
  deriving DecidableEq

/-- The pointer to the current manifest, in `latest.json`. -/
structure ManifestPointer where
  manifest : ManifestPath
  sealedThrough : U32
  deriving DecidableEq

/-! ## The rows of an index -/

/-- The rows from `start` on, in the order of their ranges. -/
def Store.rangeMetasFrom (s : Store ν) (start : Nat) : List (RangeMeta ν) :=
  (s.rangeMeta.toList.filter fun row => start ≤ row.1).map (·.2)

/-- The end of the last range of the keys that follow each other from `expected` on. -/
def contiguousRowsEnd (last : Option Nat) (expected : Nat) : List Nat → Option Nat
  | [] => last
  | start :: rest =>
    if start ≠ expected then last
    else contiguousRowsEnd (some (start + rangeSize - 1)) (expected + rangeSize) rest

def Store.rangeMetaFilledThrough (s : Store ν) : Option Nat :=
  contiguousRowsEnd none 0 s.rangeMeta.keys

/-! ## The writer -/

/-- The JSON of a manifest. -/
class ManifestJson (ν : Type) where
  manifestJson : Manifest ν → Bytes

/-- What a key signs: a file, and the pointer in `latest.json`. -/
class SigningKey (κ : Type) where
  signatureHex : κ → Bytes → Bytes
  pointerJson : κ → ManifestPointer → Bytes

open ManifestJson SigningKey

/-- Why a writer stopped. -/
inductive SnapshotWriteError where
  | io
  | index (error : IndexError)
  | missingRange (start : U32)
  | blobMismatch (start : U32) (mismatch : BlobMismatch)
  | manifestExists (path : ManifestPath)
  deriving DecidableEq

/-- Why an export stopped. -/
inductive SnapshotExportError where
  | index (error : IndexError)
  | noSealedRange
  | noGenesisRow
  | manifest (error : ManifestError)
  | write (error : SnapshotWriteError)
  deriving DecidableEq

/-- What an export works on: the index, the files of the directory, and the temporary
    file next to each path. -/
structure ExportWorld (ν : Type) where
  index : Store ν
  files : SnapshotFile → Option Bytes
  temps : SnapshotFile → Option Bytes

abbrev Export (ν α : Type) : Type := Prog (ExportWorld ν) SnapshotExportError α

/-- Writes the temporary file next to `file`. -/
def ExportWorld.create (file : SnapshotFile) (bytes : Bytes) (w : ExportWorld ν) : ExportWorld ν :=
  { w with temps := Function.update w.temps file (some bytes) }

/-- Renames the temporary file to `file`. -/
def ExportWorld.rename (file : SnapshotFile) (w : ExportWorld ν) :
    Except SnapshotExportError (ExportWorld ν × Unit) :=
  match w.temps file with
  | none => .error (.write .io)
  | some bytes =>
    .ok ({ w with
            files := Function.update w.files file (some bytes)
            temps := Function.update w.temps file none }, ())

/-- A writer signs with its key. -/
structure SnapshotWriter (κ : Type) where
  key : κ

/-- What an export wrote. -/
structure Exported where
  manifest : ManifestPath
  written : Nat
  deriving DecidableEq

namespace SnapshotWriter

/-- Writes `bytes` to a temporary file next to `file`, and renames it to `file`. -/
def put (file : SnapshotFile) (bytes : Bytes) : Export ν Unit := do
  Prog.write fun w => .ok (w.create file bytes, ())
  Prog.write (ExportWorld.rename file)

/-- The path of the manifest for `now`, which no file has. -/
def newManifestPath (now : DateTime) : Export ν ManifestPath :=
  Prog.read fun w => do
    let path := ManifestPath.of now
    ensure (w.files (.manifest path) = none) (.write (.manifestExists path))
    return path

/-- The range file of the entry is present with the length of the entry. -/
def hasRange (entry : ManifestEntry ν) : Export ν Bool :=
  Prog.read fun w =>
    match w.files (.range (.of entry)) with
    | some file => .ok (file.length = entry.blobLen.val)
    | none => .ok false

/-- The blob of the sealed range of the entry in the current generation. -/
def sealedBlob (entry : ManifestEntry ν) : Export ν Bytes :=
  Prog.read fun w => do
    let _ ← okMapError w.index.getState (.write <| .index ·)
    let found ← okMapError (w.index.sealedRange entry.startHeight.val) (.write <| .index ·)
    okOr found (.write (.missingRange entry.startHeight))

variable [Blake3]

/-- Checks the blob against the entry, and writes it to the range file of the entry. -/
def putRange (entry : ManifestEntry ν) (blob : Bytes) : Export ν Unit := do
  Prog.done (okMapError (entry.checkBlob blob) (.write <| .blobMismatch entry.startHeight ·))
  put (.range (.of entry)) blob

/-- Writes the range files that are not present. `written` files were written before. -/
def putRanges (written : Nat) : List (ManifestEntry ν) → Export ν Nat
  | [] => pure written
  | entry :: rest => do
    if ← hasRange entry then
      putRanges written rest
    else
      let blob ← sealedBlob entry
      putRange entry blob
      putRanges (written + 1) rest

variable [ManifestJson ν] [SigningKey κ]

omit [Blake3] in
/-- Writes the manifest, then its signature, then `latest.json`. -/
def putManifestAndLatest (writer : SnapshotWriter κ) (path : ManifestPath) (manifest : Manifest ν) :
    Export ν Unit := do
  let bytes := manifestJson manifest
  put (.manifest path) bytes
  put (.signature path) (signatureHex writer.key bytes)
  put .latest (pointerJson writer.key ⟨path, manifest.sealedThrough⟩)

/-- Writes the range files of the manifest, then the manifest and what points at it. -/
def exportManifest (writer : SnapshotWriter κ) (manifest : Manifest ν) (now : DateTime) :
    Export ν Exported := do
  let path ← newManifestPath now
  let written ← putRanges 0 manifest.entries
  writer.putManifestAndLatest path manifest
  return { manifest := path, written }

end SnapshotWriter

/-! ## One export -/

/-- The entries from genesis to the first sealed range without a row. -/
structure ExportRows (ν : Type) where
  entries : List (ManifestEntry ν)
  missing : U32

def ExportRows.read (s : Store ν) : Except SnapshotExportError (ExportRows ν) := do
  let st ← okMapError s.getState .index
  let sealedThrough ← okOr st.sealedThrough .noSealedRange
  let sealed := sealedThrough / rangeSize + 1
  let found := s.rangeMetaFilledThrough.elim 0 (· / rangeSize + 1)
  return { entries := ((s.rangeMetasFrom 0).take found).map (·.entry)
           missing := Fin.ofNat _ sealed - Fin.ofNat _ found }

/-- What one export wrote. -/
structure SnapshotExport where
  manifest : ManifestPath
  ranges : Nat
  written : Nat
  missingRows : U32
  deriving DecidableEq

/-- Writes the rows of the index from genesis as a snapshot. -/
def SnapshotExport.run [Blake3] [ManifestJson ν] [SigningKey κ] (network : String)
    (genesisHash : Hash) (now : DateTime) (writer : SnapshotWriter κ) :
    Export ν SnapshotExport := do
  let rows ← Prog.read fun w => ExportRows.read w.index
  Prog.done (ensure (rows.entries ≠ []) .noGenesisRow)
  let manifest ← Prog.done
    (okMapError (Manifest.fromEntriesToGap network genesisHash rows.entries) .manifest)
  let exported ← writer.exportManifest manifest now
  return { manifest := exported.manifest, ranges := manifest.entries.length,
           written := exported.written, missingRows := rows.missing }

/-! ## Exports one after the other -/

/-- The export in progress, next to what it works on. -/
structure ExportSystem (ν : Type) where
  world : ExportWorld ν
  running : Option (Export ν SnapshotExport)

/-- Every row that an export of the index reads has its entry in `Rows`. -/
def Store.RowsIn (Rows : ManifestEntry ν → Prop) (s : Store ν) : Prop :=
  ∀ rows, ExportRows.read s = .ok rows → ∀ entry ∈ rows.entries, Rows entry

namespace ExportSystem

variable [Blake3] [ManifestJson ν]

/-- The index changes at any time, with its rows to the first gap in `Rows`. An export starts
    when none is in progress. It takes a step, or stops after any of its steps. When it
    stops, a temporary file may hold a part of what was written. -/
inductive Step (κ : Type) [SigningKey κ] (Rows : ManifestEntry ν → Prop) :
    ExportSystem ν → ExportSystem ν → Prop where
  | index {x : ExportSystem ν} {index : Store ν} : index.RowsIn Rows →
      Step κ Rows x { x with world := { x.world with index } }
  | start {x : ExportSystem ν} (network : String) (genesisHash : Hash) (now : DateTime)
      (writer : SnapshotWriter κ) : x.running = none →
      Step κ Rows x { x with running := some (SnapshotExport.run network genesisHash now writer) }
  | act {x : ExportSystem ν} {p p' : Export ν SnapshotExport} {world : ExportWorld ν} :
      x.running = some p → Prog.Acts (p, x.world) (p', world) →
      Step κ Rows x { world, running := some p' }
  | stop {x : ExportSystem ν} (temps : SnapshotFile → Option Bytes) :
      Step κ Rows x { world := { x.world with temps }, running := none }

/-- The directory is empty, and no export is in progress. -/
structure Starts (Rows : ManifestEntry ν → Prop) (x : ExportSystem ν) : Prop where
  index : x.world.index.RowsIn Rows
  files : ∀ file, x.world.files file = none
  running : x.running = none

/-- The states of the runs of the system. -/
def Reached (κ : Type) [SigningKey κ] (Rows : ManifestEntry ν → Prop) (x : ExportSystem ν) : Prop :=
  ∃ x₀ : ExportSystem ν, x₀.Starts Rows ∧ ReflTransGen (Step κ Rows) x₀ x

end ExportSystem

/-! ## The files -/

section

variable {Rows : ManifestEntry ν → Prop} {files : SnapshotFile → Option Bytes}

/-- Manifests that are present stay as they are, and range files stay present. -/
structure KeepsFiles (files files' : SnapshotFile → Option Bytes) : Prop where
  manifests : ∀ path bytes, files (.manifest path) = some bytes → files' (.manifest path) =
    some bytes
  ranges : ∀ path blob, files (.range path) = some blob → ∃ blob', files' (.range path) = some blob'

theorem KeepsFiles.refl (files : SnapshotFile → Option Bytes) : KeepsFiles files files :=
  ⟨fun _ _ h => h, fun _ blob h => ⟨blob, h⟩⟩

theorem KeepsFiles.trans {files₁ files₂ files₃ : SnapshotFile → Option Bytes}
    (h : KeepsFiles files₁ files₂) (h' : KeepsFiles files₂ files₃) : KeepsFiles files₁ files₃ where
  manifests path bytes hfile := h'.manifests path bytes (h.manifests path bytes hfile)
  ranges path blob hfile := by
    obtain ⟨blob', hfile'⟩ := h.ranges path blob hfile
    exact h'.ranges path blob' hfile'

variable {blob bytes : Bytes} {entries : List (ManifestEntry ν)} {key : κ} {w : ExportWorld ν}
  {y : ExportSystem ν}

/-- A file that is written takes no range file away. -/
theorem present_update {path : RangePath} (h : files (.range path) = some blob)
    (file : SnapshotFile) (bytes : Bytes) :
    ∃ blob', Function.update files file (some bytes) (.range path) = some blob' := by
  by_cases hfile : SnapshotFile.range path = file
  · subst hfile
    exact ⟨bytes, Function.update_self ..⟩
  · exact ⟨blob, by rw [Function.update_of_ne hfile, h]⟩

variable {file : SnapshotFile} {manifest : Manifest ν} {path : ManifestPath} {x : ExportSystem ν}

/-- The write of a file keeps the files, if no manifest has its path. -/
theorem keepsFiles_update (bytes : Bytes)
    (hnew : ∀ path, file = .manifest path → files file = none) :
    KeepsFiles files (Function.update files file (some bytes)) := by
  refine ⟨?_, fun path blob h => present_update h file bytes⟩
  intro path bytes' hfile
  by_cases hpath : .manifest path = file
  · have hnone := hnew path hpath.symm
    rw [← hpath, hfile] at hnone
    cases hnone
  · rw [Function.update_of_ne hpath, hfile]

/-- The entry of an export is the entry of a row. A manifest may set `epochEnd`. -/
def OfRow (Rows : ManifestEntry ν → Prop) (entry : ManifestEntry ν) : Prop :=
  ∃ row, Rows row ∧ entry = { row with epochEnd := entry.epochEnd }

/-- Every entry of the manifest has a row and a range file. -/
def Covers (Rows : ManifestEntry ν → Prop) (files : SnapshotFile → Option Bytes)
    (entries : List (ManifestEntry ν)) : Prop :=
  ∀ entry ∈ entries, OfRow Rows entry ∧ ∃ blob, files (.range (.of entry)) = some blob

theorem Covers.update (h : Covers Rows files entries) (file : SnapshotFile) (bytes : Bytes) :
    Covers Rows (Function.update files file (some bytes)) entries := by
  intro entry hentry
  obtain ⟨hrow, blob, hblob⟩ := h entry hentry
  exact ⟨hrow, present_update hblob file bytes⟩

/-- The entries of the manifest of rows are those of the rows. -/
theorem Manifest.ofRow_of_fromEntriesToGap {network : String} {genesisHash : Hash}
    (h : fromEntriesToGap network genesisHash entries = .ok manifest)
    (hrows : ∀ entry ∈ entries, Rows entry) : ∀ entry ∈ manifest.entries, OfRow Rows entry := by
  rw [new_eq_ok h]
  intro entry hentry
  obtain ⟨row, hrow, hentry⟩ := mem_closeLast hentry
  exact ⟨row, hrows row (mem_of_mem_takeToGap hrow), hentry⟩

variable [ManifestJson ν] [SigningKey κ]

/-- The bytes of `latest.json` point at a manifest that is present with its signature and
    its range files. -/
structure Points (Rows : ManifestEntry ν → Prop) (files : SnapshotFile → Option Bytes)
    (bytes : Bytes) (key : κ) (path : ManifestPath) (manifest : Manifest ν) : Prop where
  pointer : bytes = pointerJson key ⟨path, manifest.sealedThrough⟩
  present : files (.manifest path) = some (manifestJson manifest)
  covers : Covers Rows files manifest.entries
  signature : files (.signature path) = some (signatureHex key (manifestJson manifest))

/-- A pointer stays valid when another manifest or signature is written. -/
theorem Points.update {latest : Bytes} (h : Points Rows files latest key path manifest)
    (bytes : Bytes) (hmanifest : .manifest path ≠ file) (hsignature : .signature path ≠ file) :
    Points Rows (Function.update files file (some bytes)) latest key path manifest where
  pointer := h.pointer
  present := by rw [Function.update_of_ne hmanifest, h.present]
  covers := h.covers.update file bytes
  signature := by rw [Function.update_of_ne hsignature, h.signature]

variable [Blake3]

/-- What the files of the directory are in every state. -/
structure SafeFiles (κ : Type) [SigningKey κ] (Rows : ManifestEntry ν → Prop)
    (files : SnapshotFile → Option Bytes) : Prop where
  ranges : ∀ path blob, files (.range path) = some blob →
    ∃ entry, OfRow Rows entry ∧ RangePath.of entry = path ∧ entry.checkBlob blob = .ok ()
  manifests : ∀ path bytes, files (.manifest path) = some bytes →
    ∃ manifest : Manifest ν, bytes = manifestJson manifest ∧ Covers Rows files manifest.entries
  latest : ∀ bytes, files .latest = some bytes →
    ∃ (key : κ) (path : ManifestPath) (manifest : Manifest ν),
      Points Rows files bytes key path manifest

theorem SafeFiles.empty (h : ∀ file, files file = none) : SafeFiles κ Rows files where
  ranges path blob hfile := by simp [h] at hfile
  manifests path bytes hfile := by simp [h] at hfile
  latest bytes hfile := by simp [h] at hfile

/-- The directory after the write of a file. A range file has a blob of its entry, and a
    manifest has range files. -/
theorem SafeFiles.update (h : SafeFiles κ Rows files) (hrange : ∀ path, file = .range path →
      ∃ entry, OfRow Rows entry ∧ RangePath.of entry = path ∧ entry.checkBlob bytes = .ok ())
    (hmanifest : ∀ path, file = .manifest path →
      ∃ manifest : Manifest ν, bytes = manifestJson manifest ∧ Covers Rows files manifest.entries)
    (hlatest : ∀ latest, Function.update files file (some bytes) .latest = some latest →
      ∃ (key : κ) (path : ManifestPath) (manifest : Manifest ν),
        Points Rows (Function.update files file (some bytes)) latest key path manifest) :
    SafeFiles κ Rows (Function.update files file (some bytes)) := by
  refine ⟨?_, ?_, hlatest⟩
  · intro path blob hfile
    by_cases hpath : .range path = file
    · subst hpath
      rw [Function.update_self] at hfile
      cases hfile
      exact hrange path rfl
    · rw [Function.update_of_ne hpath] at hfile
      exact h.ranges path blob hfile
  · intro path bytes' hfile
    by_cases hpath : .manifest path = file
    · subst hpath
      rw [Function.update_self] at hfile
      cases hfile
      obtain ⟨manifest, hbytes, hcovers⟩ := hmanifest path rfl
      exact ⟨manifest, hbytes, hcovers.update _ _⟩
    · rw [Function.update_of_ne hpath] at hfile
      obtain ⟨manifest, hbytes, hcovers⟩ := h.manifests path bytes' hfile
      exact ⟨manifest, hbytes, hcovers.update _ _⟩

theorem SafeFiles.putRange (h : SafeFiles κ Rows files) {entry : ManifestEntry ν}
    (hrow : OfRow Rows entry) (hblob : entry.checkBlob blob = .ok ()) :
    SafeFiles κ Rows (Function.update files (.range (.of entry)) (some blob)) := by
  apply h.update
  · intro path hpath
    cases hpath
    exact ⟨entry, hrow, rfl, hblob⟩
  · intro path hpath
    cases hpath
  · intro latest hfile
    rw [Function.update_of_ne (by simp)] at hfile
    obtain ⟨key, path, manifest, hpoints⟩ := h.latest latest hfile
    exact ⟨key, path, manifest, hpoints.update _ (by simp) (by simp)⟩

/-- `latest.json` points at another manifest than `path`. -/
def PointsElsewhere (κ : Type) [SigningKey κ] (Rows : ManifestEntry ν → Prop) (path : ManifestPath)
    (files : SnapshotFile → Option Bytes) : Prop :=
  ∀ latest, files .latest = some latest →
    ∃ (key : κ) (path' : ManifestPath) (manifest : Manifest ν),
      Points Rows files latest key path' manifest ∧ path' ≠ path

/-- A manifest is written at a path that no file has. The pointer names a manifest that is
    present, so another one. -/
theorem SafeFiles.putManifest (h : SafeFiles κ Rows files) (hnew : files (.manifest path) = none)
    (hcovers : Covers Rows files manifest.entries) :
    SafeFiles κ Rows (Function.update files (.manifest path) (some (manifestJson manifest))) ∧
      PointsElsewhere κ Rows path
        (Function.update files (.manifest path) (some (manifestJson manifest))) := by
  have helsewhere : PointsElsewhere κ Rows path
      (Function.update files (.manifest path) (some (manifestJson manifest))) := by
    intro latest hfile
    rw [Function.update_of_ne (by simp)] at hfile
    obtain ⟨key, path', manifest', hpoints⟩ := h.latest latest hfile
    have hpath : path' ≠ path := by
      rintro rfl
      have hpresent := hpoints.present
      rw [hnew] at hpresent
      cases hpresent
    exact ⟨key, path', manifest', hpoints.update _ (by simpa using hpath) (by simp), hpath⟩
  refine ⟨h.update ?_ ?_ ?_, helsewhere⟩
  · intro range hrange
    cases hrange
  · intro path' _
    exact ⟨manifest, rfl, hcovers⟩
  · intro latest hfile
    obtain ⟨key, path', manifest', hpoints, -⟩ := helsewhere latest hfile
    exact ⟨key, path', manifest', hpoints⟩

theorem SafeFiles.putSignature (h : SafeFiles κ Rows files)
    (helsewhere : PointsElsewhere κ Rows path files) (bytes : Bytes) :
    SafeFiles κ Rows (Function.update files (.signature path) (some bytes)) := by
  apply h.update
  · intro range hrange
    cases hrange
  · intro path' hpath'
    cases hpath'
  · intro latest hfile
    rw [Function.update_of_ne (by simp)] at hfile
    obtain ⟨key, path', manifest, hpoints, hpath⟩ := helsewhere latest hfile
    exact ⟨key, path', manifest, hpoints.update _ (by simp) (by simpa using hpath)⟩

theorem SafeFiles.putLatest (h : SafeFiles κ Rows files)
    (hpoints : Points Rows files bytes key path manifest) :
    SafeFiles κ Rows (Function.update files .latest (some bytes)) := by
  apply h.update
  · intro range hrange
    cases hrange
  · intro path' hpath'
    cases hpath'
  · intro latest hfile
    rw [Function.update_self] at hfile
    cases hfile
    exact ⟨key, path, manifest, hpoints.update _ (by simp) (by simp)⟩

/-! ## The steps of an export -/

variable (Rows) in
/-- The others change only the index. -/
def ExportWorld.Rely (w w' : ExportWorld ν) : Prop :=
  w'.files = w.files ∧ w'.temps = w.temps ∧ w'.index.RowsIn Rows

variable (κ Rows) in
/-- Each step leaves a safe directory and keeps its files, and does not write the index. -/
def ExportWorld.Guar (w w' : ExportWorld ν) : Prop :=
  w'.index = w.index ∧
    (SafeFiles κ Rows w.files → SafeFiles κ Rows w'.files ∧ KeepsFiles w.files w'.files)

theorem export_interference :
    Prog.Interference (ExportWorld.Rely Rows) (ExportWorld.Guar κ Rows) where
  trans h h' := ⟨h'.1.trans h.1, h'.2.1.trans h.2.1, h'.2.2⟩
  reads _ := ⟨rfl, fun hsafe => ⟨hsafe, .refl _⟩⟩

namespace SnapshotWriter

variable {w : ExportWorld ν}

/-- A file is written in two steps. Only the rename changes the files. -/
theorem wp_put {Q : Unit → ExportWorld ν → Prop} {bytes : Bytes}
    (hsafe : SafeFiles κ Rows (Function.update w.files file (some bytes)))
    (hkeeps : KeepsFiles w.files (Function.update w.files file (some bytes)))
    (hpost : ∀ w', w'.files = Function.update w.files file (some bytes) → Q () w') :
    (put file bytes).wp (ExportWorld.Rely Rows) (ExportWorld.Guar κ Rows) Q w := by
  apply Prog.wp_bind
  apply Prog.wp_write export_interference
  rintro w₁ ⟨hfiles₁, -, -⟩ w₂ _ hcreate
  cases hcreate
  refine ⟨⟨rfl, fun hsafe₁ => ⟨hsafe₁, .refl _⟩⟩, ?_⟩
  apply Prog.wp_write export_interference
  rintro w₃ ⟨hfiles₃, htemps₃, -⟩ w₄ _ hrename
  have htemp : w₃.temps file = some bytes := by
    rw [htemps₃]
    exact Function.update_self ..
  have hfiles : w₃.files = w.files := hfiles₃.trans hfiles₁
  simp only [ExportWorld.rename, htemp, Except.ok.injEq, Prod.mk.injEq, and_true] at hrename
  subst hrename
  rw [← hfiles] at hsafe hkeeps hpost
  exact ⟨⟨rfl, fun _ => ⟨hsafe, hkeeps⟩⟩, hpost _ rfl⟩

variable (κ Rows) in
/-- Range files are written, and no manifest. -/
structure RangesGrow (files files' : SnapshotFile → Option Bytes) : Prop where
  safe : SafeFiles κ Rows files'
  keeps : KeepsFiles files files'
  manifests : ∀ path, files' (.manifest path) = files (.manifest path)

theorem RangesGrow.refl (h : SafeFiles κ Rows files) : RangesGrow κ Rows files files :=
  ⟨h, .refl _, fun _ => rfl⟩

theorem RangesGrow.trans {files₁ files₂ files₃ : SnapshotFile → Option Bytes}
    (h : RangesGrow κ Rows files₁ files₂) (h' : RangesGrow κ Rows files₂ files₃) :
    RangesGrow κ Rows files₁ files₃ :=
  ⟨h'.safe, h.keeps.trans h'.keeps, fun path => (h'.manifests path).trans (h.manifests path)⟩

/-- The range file of an entry is written after its blob was checked. -/
theorem wp_putRange (hsafe : SafeFiles κ Rows w.files) {entry : ManifestEntry ν}
    (hrow : OfRow Rows entry) (blob : Bytes) :
    (putRange entry blob).wp (ExportWorld.Rely Rows) (ExportWorld.Guar κ Rows)
      (fun _ w' => RangesGrow κ Rows w.files w'.files ∧
        ∃ blob, w'.files (.range (.of entry)) = some blob) w := by
  apply Prog.wp_bind
  apply Prog.wp_done
  intro _ hcheck
  rw [okMapError_eq_ok] at hcheck
  have hsafe' := hsafe.putRange hrow hcheck
  have hkeeps : KeepsFiles w.files (Function.update w.files (.range (.of entry)) (some blob)) :=
    keepsFiles_update blob nofun
  apply wp_put hsafe' hkeeps
  intro w' hfiles
  rw [← hfiles] at hsafe' hkeeps
  refine ⟨⟨hsafe', hkeeps, ?_⟩, blob, ?_⟩
  · intro path
    rw [hfiles, Function.update_of_ne (by simp)]
  · rw [hfiles, Function.update_self]

/-- After the range files are written, every entry has one. -/
theorem wp_putRanges (hsafe : SafeFiles κ Rows w.files) (written : Nat)
    {entries : List (ManifestEntry ν)} (hrows : ∀ entry ∈ entries, OfRow Rows entry) :
    (putRanges written entries).wp (ExportWorld.Rely Rows) (ExportWorld.Guar κ Rows)
      (fun _ w' => RangesGrow κ Rows w.files w'.files ∧ Covers Rows w'.files entries) w := by
  induction entries generalizing written w with
  | nil => exact ⟨.refl hsafe, nofun⟩
  | cons entry rest ih =>
    have hrow : OfRow Rows entry := hrows entry (.head _)
    -- The rest of the entries, from a directory with the range file of the first one.
    have hnext : ∀ (written : Nat) {w₁ : ExportWorld ν}, RangesGrow κ Rows w.files w₁.files →
        (∃ blob, w₁.files (.range (.of entry)) = some blob) →
        (putRanges written rest).wp (ExportWorld.Rely Rows) (ExportWorld.Guar κ Rows)
          (fun _ w' => RangesGrow κ Rows w.files w'.files ∧ Covers Rows w'.files (entry :: rest))
          w₁ := by
      rintro written w₁ hgrow ⟨blob, hblob⟩
      refine Prog.wp_mono (ih hgrow.safe written fun entry h => hrows entry (.tail _ h)) ?_
      rintro _ w₂ ⟨hgrow', hcovers⟩
      refine ⟨hgrow.trans hgrow', ?_⟩
      rintro entry' (_ | ⟨_, hentry'⟩)
      · exact ⟨hrow, hgrow'.keeps.ranges _ blob hblob⟩
      · exact hcovers entry' hentry'
    apply Prog.wp_bind
    apply Prog.wp_read export_interference
    rintro w₁ ⟨hfiles₁, -, -⟩ found hfound
    cases found with
    | true =>
      have hsame : RangesGrow κ Rows w.files w₁.files := by
        rw [hfiles₁]
        exact .refl hsafe
      apply hnext written hsame
      cases hfile : w₁.files (.range (.of entry)) with
      | some blob => exact ⟨blob, rfl⟩
      | none => simp [hfile] at hfound
    | false =>
      apply Prog.wp_bind
      apply Prog.wp_read export_interference
      rintro w₂ ⟨hfiles₂, -, -⟩ blob -
      have hfiles : w₂.files = w.files := hfiles₂.trans hfiles₁
      apply Prog.wp_bind
      refine Prog.wp_mono (wp_putRange (hfiles ▸ hsafe) hrow blob) ?_
      rintro _ w₃ ⟨hgrow, hpresent⟩
      rw [hfiles] at hgrow
      exact hnext (written + 1) hgrow hpresent

/-- The manifest is written when its range files are present, and `latest.json` when the
    manifest and its signature are. -/
theorem wp_putManifestAndLatest (writer : SnapshotWriter κ) (hsafe : SafeFiles κ Rows w.files)
    (hnew : w.files (.manifest path) = none) (hcovers : Covers Rows w.files manifest.entries) :
    (writer.putManifestAndLatest path manifest).wp (ExportWorld.Rely Rows)
      (ExportWorld.Guar κ Rows) (fun _ _ => True) w := by
  obtain ⟨hsafe₁, helsewhere⟩ := hsafe.putManifest hnew hcovers
  apply Prog.wp_bind
  apply wp_put hsafe₁
  · apply keepsFiles_update
    intro _ _
    exact hnew
  intro w₁ hfiles₁
  rw [← hfiles₁] at hsafe₁ helsewhere
  have hsafe₂ := hsafe₁.putSignature helsewhere (signatureHex writer.key (manifestJson manifest))
  apply Prog.wp_bind
  apply wp_put hsafe₂ (keepsFiles_update _ nofun)
  intro w₂ hfiles₂
  rw [← hfiles₂] at hsafe₂
  have hpoints : Points Rows w₂.files (pointerJson writer.key ⟨path, manifest.sealedThrough⟩)
      writer.key path manifest := by
    rw [hfiles₂, hfiles₁]
    exact ⟨rfl, by simp, (hcovers.update _ _).update _ _, by simp⟩
  apply wp_put (hsafe₂.putLatest hpoints) (keepsFiles_update _ nofun)
  intro w₃ _
  trivial

theorem wp_exportManifest (writer : SnapshotWriter κ) (hsafe : SafeFiles κ Rows w.files)
    (hrows : ∀ entry ∈ manifest.entries, OfRow Rows entry) (now : DateTime) :
    (writer.exportManifest manifest now).wp (ExportWorld.Rely Rows) (ExportWorld.Guar κ Rows)
      (fun _ _ => True) w := by
  apply Prog.wp_bind
  apply Prog.wp_read export_interference
  rintro w₁ ⟨hfiles, -, -⟩ path hpath
  simp only [bind_eq_ok, ensure_eq_ok, pure_eq_ok, Except.ok.injEq] at hpath
  obtain ⟨-, hnew, rfl⟩ := hpath
  apply Prog.wp_bind
  refine Prog.wp_mono (wp_putRanges (hfiles ▸ hsafe) 0 hrows) ?_
  rintro written w₂ ⟨hgrow, hcovers⟩
  rw [← hgrow.manifests] at hnew
  apply Prog.wp_bind
  refine Prog.wp_mono (wp_putManifestAndLatest writer hgrow.safe hnew hcovers) ?_
  intro _ w₃ _
  exact Prog.wp_pure trivial

end SnapshotWriter

/-! ## Every state of a run -/

/-- Each step of an export leaves a safe directory. -/
theorem SnapshotExport.wp_run (hsafe : SafeFiles κ Rows w.files) (network : String)
    (genesisHash : Hash) (now : DateTime) (writer : SnapshotWriter κ) :
    (run network genesisHash now writer).wp (ExportWorld.Rely Rows) (ExportWorld.Guar κ Rows)
      (fun _ _ => True) w := by
  apply Prog.wp_bind
  apply Prog.wp_read export_interference
  rintro w₁ ⟨hfiles, -, hindex⟩ rows hread
  apply Prog.wp_bind
  apply Prog.wp_done
  intro _ _
  apply Prog.wp_bind
  apply Prog.wp_done
  intro manifest hmanifest
  rw [okMapError_eq_ok] at hmanifest
  have hrows := Manifest.ofRow_of_fromEntriesToGap hmanifest (hindex rows hread)
  apply Prog.wp_bind
  refine Prog.wp_mono (writer.wp_exportManifest (hfiles ▸ hsafe) hrows now) ?_
  intro _ w₂ _
  exact Prog.wp_pure trivial

/-- A safe directory, and an export in progress that keeps it safe. -/
structure ExportSystem.Safe (κ : Type) [SigningKey κ] (Rows : ManifestEntry ν → Prop)
    (x : ExportSystem ν) : Prop where
  files : SafeFiles κ Rows x.world.files
  index : x.world.index.RowsIn Rows
  running : ∀ p, x.running = some p →
    p.wp (ExportWorld.Rely Rows) (ExportWorld.Guar κ Rows) (fun _ _ => True) x.world

theorem ExportSystem.Safe.step (h : x.Safe κ Rows) (hstep : Step κ Rows x y) :
    y.Safe κ Rows ∧ KeepsFiles x.world.files y.world.files := by
  cases hstep with
  | @index index hindex =>
    refine ⟨⟨h.files, hindex, ?_⟩, .refl _⟩
    intro p hp
    have hrely : ExportWorld.Rely Rows x.world { x.world with index } := ⟨rfl, rfl, hindex⟩
    exact Prog.wp_rely export_interference (fun _ _ _ _ _ => trivial) (h.running p hp) hrely
  | start network genesisHash now writer _ =>
    refine ⟨⟨h.files, h.index, ?_⟩, .refl _⟩
    rintro p ⟨⟩
    exact SnapshotExport.wp_run h.files network genesisHash now writer
  | @act p p' world hp hacts =>
    obtain ⟨⟨hindex, hguar⟩, hnext⟩ := Prog.wp_acts (h.running p hp) ⟨rfl, rfl, h.index⟩ hacts
    obtain ⟨hfiles, hkeeps⟩ := hguar h.files
    refine ⟨⟨hfiles, ?_, ?_⟩, hkeeps⟩
    · rw [hindex]
      exact h.index
    · rintro p ⟨⟩
      exact hnext
  | stop temps => exact ⟨⟨h.files, h.index, nofun⟩, .refl _⟩

theorem ExportSystem.Safe.run (h : x.Safe κ Rows) (hsteps : ReflTransGen (Step κ Rows) x y) :
    y.Safe κ Rows ∧ KeepsFiles x.world.files y.world.files := by
  induction hsteps with
  | refl => exact ⟨h, .refl _⟩
  | tail _ hstep ih =>
    obtain ⟨hsafe, hkeeps⟩ := ih
    obtain ⟨hsafe', hkeeps'⟩ := hsafe.step hstep
    exact ⟨hsafe', hkeeps.trans hkeeps'⟩

theorem ExportSystem.Reached.safe (h : x.Reached κ Rows) : x.Safe κ Rows := by
  obtain ⟨x₀, hstarts, hsteps⟩ := h
  have hsafe : x₀.Safe κ Rows := by
    refine ⟨.empty hstarts.files, hstarts.index, ?_⟩
    intro p hp
    rw [hstarts.running] at hp
    cases hp
  exact (hsafe.run hsteps).1

/-- The manifest is present, and each of its range files is present with the length and
    the digest of its entry. -/
structure ExportWorld.Holds (w : ExportWorld ν) (path : ManifestPath) (manifest : Manifest ν) :
    Prop where
  present : w.files (.manifest path) = some (manifestJson manifest)
  ranges : ∀ entry ∈ manifest.entries, ∃ blob, w.files (.range (.of entry)) = some blob ∧
    blob.length = entry.blobLen.val ∧ Blake3.hash blob = entry.blobDigest

/-- A range file with the path of an entry has the blob of the entry: two rows with one
    path have one blob. -/
theorem SafeFiles.holds (h : SafeFiles κ Rows w.files)
    (hdistinct : ∀ row row', Rows row → Rows row' → RangePath.of row = RangePath.of row' →
      row.blobLen = row'.blobLen ∧ row.blobDigest = row'.blobDigest)
    (hmanifest : w.files (.manifest path) = some (manifestJson manifest))
    (hcovers : Covers Rows w.files manifest.entries) : w.Holds path manifest := by
  refine ⟨hmanifest, ?_⟩
  intro entry hentry
  obtain ⟨⟨row, hrow, heq⟩, blob, hblob⟩ := hcovers entry hentry
  obtain ⟨entry', ⟨row', hrow', heq'⟩, hpath, hcheck⟩ := h.ranges _ blob hblob
  rw [heq, heq'] at hpath
  obtain ⟨hlen, hdigest⟩ := hdistinct row' row hrow' hrow hpath
  rw [heq', ManifestEntry.checkBlob_eq_ok] at hcheck
  refine ⟨blob, hblob, ?_⟩
  rw [heq, ← hlen, ← hdigest]
  exact hcheck

end

/-! ## Exports that are not stopped -/

namespace SnapshotWriter

variable {w : ExportWorld ν}

/-- The directory after a file was written. -/
def afterPut (file : SnapshotFile) (bytes : Bytes) (w : ExportWorld ν) : ExportWorld ν :=
  { w with
    files := Function.update w.files file (some bytes)
    temps := Function.update (Function.update w.temps file (some bytes)) file none }

theorem run_put (file : SnapshotFile) (bytes : Bytes) (w : ExportWorld ν) :
    (put file bytes).run w = (.ok (), afterPut file bytes w) := by
  rw [put, Prog.run_bind (Prog.run_write rfl)]
  apply Prog.run_write
  simp [ExportWorld.rename, ExportWorld.create, afterPut]

/-- The index has the blob of the entry. -/
def HasBlob [Blake3] (s : Store ν) (entry : ManifestEntry ν) : Prop :=
  ∃ blob, s.sealedRange entry.startHeight.val = .ok (some blob) ∧ entry.checkBlob blob = .ok ()

variable [Blake3]

theorem run_putRanges {st : IndexState} (hstate : w.index.getState = .ok st) (written : Nat)
    {entries : List (ManifestEntry ν)} (hblobs : ∀ entry ∈ entries, HasBlob w.index entry) :
    ∃ n w', (putRanges written entries).run w = (.ok n, w') ∧
      ∀ path, w'.files (.manifest path) = w.files (.manifest path) := by
  induction entries generalizing written w with
  | nil => exact ⟨written, w, rfl, fun _ => rfl⟩
  | cons entry rest ih =>
    obtain ⟨blob, hblob, hcheck⟩ := hblobs entry (.head _)
    have hrest : ∀ entry ∈ rest, HasBlob w.index entry := fun entry h => hblobs entry (.tail _ h)
    obtain ⟨found, hfound⟩ : ∃ found, (hasRange entry).run w = (.ok found, w) := by
      rw [hasRange, Prog.run_read]
      cases w.files (.range (.of entry)) with
      | some file => exact ⟨_, rfl⟩
      | none => exact ⟨_, rfl⟩
    rw [putRanges, Prog.run_bind hfound]
    cases found with
    | true => exact ih hstate written hrest
    | false =>
      have hread : (sealedBlob entry).run w = (.ok blob, w) := by
        rw [sealedBlob, Prog.run_read, hstate, hblob]
        rfl
      have hput : (putRange entry blob).run w = (.ok (), afterPut (.range (.of entry)) blob w) := by
        rw [putRange, hcheck]
        exact run_put (.range (.of entry)) blob w
      rw [if_neg Bool.false_ne_true, Prog.run_bind hread, Prog.run_bind hput]
      have hindex : (afterPut (.range (.of entry)) blob w).index = w.index := rfl
      rw [← hindex] at hstate hrest
      obtain ⟨n, w', hrun, hkeeps⟩ := ih hstate (written + 1) hrest
      exact ⟨n, w', hrun, fun path => (hkeeps path).trans (by simp [afterPut])⟩

variable [ManifestJson ν] [SigningKey κ]

/-- An export over an index with the blobs of the manifest ends with the manifest and a
    pointer at it. The other manifests stay. -/
theorem run_exportManifest (writer : SnapshotWriter κ) {manifest : Manifest ν} {now : DateTime}
    (hnew : w.files (.manifest (.of now)) = none) {st : IndexState}
    (hstate : w.index.getState = .ok st)
    (hblobs : ∀ entry ∈ manifest.entries, HasBlob w.index entry) :
    ∃ exported w', (writer.exportManifest manifest now).run w = (.ok exported, w') ∧
      w'.files .latest = some (pointerJson writer.key ⟨.of now, manifest.sealedThrough⟩) ∧
      ∀ path, w'.files (.manifest path) =
        if path = .of now then some (manifestJson manifest) else w.files (.manifest path) := by
  have hpath : (newManifestPath now).run w = (.ok (.of now), w) := by
    simp only [newManifestPath, Prog.run_read, ensure_of _ hnew, ok_bind]
    rfl
  obtain ⟨written, w₁, hranges, hkeeps⟩ := run_putRanges hstate 0 hblobs
  have hlatest : (writer.putManifestAndLatest (.of now) manifest).run w₁ = (.ok (), afterPut .latest
      (pointerJson writer.key ⟨.of now, manifest.sealedThrough⟩) (afterPut (.signature (.of now))
        (signatureHex writer.key (manifestJson manifest))
          (afterPut (.manifest (.of now)) (manifestJson manifest) w₁))) := by
    rw [putManifestAndLatest, Prog.run_bind (run_put ..), Prog.run_bind (run_put ..), run_put]
  rw [exportManifest, Prog.run_bind hpath, Prog.run_bind hranges, Prog.run_bind hlatest]
  refine ⟨_, _, rfl, by simp [afterPut], fun path => ?_⟩
  simp [afterPut, Function.update_apply, hkeeps]

end SnapshotWriter

/-- A run of an export alone is a run of the system. -/
theorem ExportSystem.steps_run [Blake3] [ManifestJson ν] (κ : Type) [SigningKey κ]
    (Rows : ManifestEntry ν → Prop) (p : Export ν SnapshotExport) (w : ExportWorld ν) :
    ReflTransGen (Step κ Rows) ⟨w, some p⟩ ⟨(p.run w).2, some (.done (p.run w).1)⟩ := by
  induction p generalizing w with
  | done result => exact .refl
  | step change next ih => exact .head (.act rfl (.act change next w)) (ih w (change w))

section

/-- A digest that starts with the first byte. -/
abbrev headDigest : Blake3 := ⟨fun bytes => ⟨bytes.headD 0 :: List.replicate 31 0, by simp⟩⟩

/-- A format with the digests of the entries. -/
abbrev digestsJson : ManifestJson Unit :=
  ⟨fun manifest => manifest.entries.flatMap (·.blobDigest.val)⟩

abbrev secondsKey : SigningKey Unit :=
  ⟨fun _ bytes => bytes, fun _ pointer => leBytes 8 pointer.manifest.publishedAt.second.toNat⟩

attribute [local instance] headDigest digestsJson secondsKey

/-- The row of a range of one byte. -/
def byteRow (byte : Byte) : RangeMeta Unit where
  entry :=
    { rangeVersion := 1, startHeight := 0, endHeight := 999, endHash := .ofNat 32 0
      endTreeSizes := default, frontiers := ⟨[], [], []⟩, subtreeRoots := []
      blobDigest := Blake3.hash [byte], blobLen := 1, epochEnd := false }
  state := .unverified
  verifiedBy := none
  verifiedAt := none
  attested := none
  sampledHeights := []

def byteState : IndexState :=
  { durableTip := some ⟨999, .ofNat 32 0⟩, sealedThrough := some 999 }

def byteIndex (byte : Byte) : Store Unit where
  state := some (encodeState ⟨999, .ofNat 32 0⟩ byteState)
  sealedRanges := (∅ : Table Nat Bytes).insert 0 [byte]
  mutableBlocks := ∅
  hashToHeight := ∅
  rangeMeta := (∅ : Table Nat (RangeMeta Unit)).insert 0 (byteRow byte)

/-- The rows of all these indexes. -/
def ByteRows (entry : ManifestEntry Unit) : Prop := ∃ byte, entry = (byteRow byte).entry

theorem getState_byteIndex (byte : Byte) : (byteIndex byte).getState = .ok byteState := by
  apply decodeState_encodeState
  constructor <;> simp [byteState, IsRangeEnd, rangeSize]

theorem read_byteIndex (byte : Byte) :
    ExportRows.read (byteIndex byte) = .ok ⟨[(byteRow byte).entry], 0⟩ := by
  have hlist : (byteIndex byte).rangeMeta.toList = [(0, byteRow byte)] := rfl
  have hkeys : (byteIndex byte).rangeMeta.keys = [0] := by
    rw [← Std.ExtTreeMap.map_fst_toList_eq_keys, hlist]
    rfl
  simp [ExportRows.read, getState_byteIndex, byteState, Store.rangeMetaFilledThrough, hkeys,
    Store.rangeMetasFrom, hlist, contiguousRowsEnd, rangeSize, okOr, okMapError]

theorem rowsIn_byteIndex (byte : Byte) : (byteIndex byte).RowsIn ByteRows := by
  intro rows hrows entry hentry
  rw [read_byteIndex] at hrows
  cases hrows
  exact ⟨byte, List.mem_singleton.mp hentry⟩

/-- An export of an index with one range, with no other step in between. -/
theorem run_byteIndex (byte : Byte) {w : ExportWorld Unit} (hindex : w.index = byteIndex byte)
    (now : DateTime) (hnew : w.files (.manifest (.of now)) = none) :
    ∃ out w', (SnapshotExport.run "Mainnet" (.ofNat 32 0) now (⟨()⟩ : SnapshotWriter Unit)).run w =
        (.ok out, w') ∧ w'.files .latest = some (leBytes 8 now.second.toNat) ∧
      ∀ path, w'.files (.manifest path) =
        if path = .of now then some (Blake3.hash [byte]).val else w.files (.manifest path) := by
  obtain ⟨manifest, hmanifest⟩ : ∃ manifest : Manifest Unit,
      Manifest.fromEntriesToGap "Mainnet" (.ofNat 32 0) [(byteRow byte).entry] = .ok manifest := by
    apply Manifest.fromEntriesToGap_isOk
    · simp
    · intro i entry hentry
      obtain ⟨rfl, rfl⟩ : i = 0 ∧ entry = (byteRow byte).entry := by
        cases i <;> simp_all
      exact ⟨rfl, rfl⟩
    · exact .singleton _
    · rfl
  have hblobs : ∀ entry ∈ manifest.entries, SnapshotWriter.HasBlob w.index entry := by
    intro entry hentry
    rw [Manifest.new_eq_ok hmanifest] at hentry
    obtain ⟨row, hrow, heq⟩ := Manifest.mem_closeLast hentry
    obtain rfl := List.mem_singleton.mp (Manifest.mem_of_mem_takeToGap hrow)
    rw [heq, hindex]
    exact ⟨[byte], rfl, ManifestEntry.checkBlob_eq_ok.mpr ⟨rfl, rfl⟩⟩
  have hread : (Prog.read fun w => ExportRows.read w.index : Export Unit _).run w =
      (.ok ⟨[(byteRow byte).entry], 0⟩, w) := by
    rw [Prog.run_read, hindex, read_byteIndex]
  obtain ⟨exported, w', hexport, hlatest, hmanifests⟩ :=
    (⟨()⟩ : SnapshotWriter Unit).run_exportManifest hnew (hindex ▸ getState_byteIndex byte) hblobs
  rw [SnapshotExport.run, Prog.run_bind hread, ensure_of _ (by simp)]
  rw [hmanifest]
  have hjson : manifestJson manifest = (Blake3.hash [byte]).val := by
    show manifest.entries.flatMap (·.blobDigest.val) = _
    rw [Manifest.new_eq_ok hmanifest]
    exact List.append_nil _
  exact ⟨_, w', Prog.run_bind hexport, hlatest, hjson ▸ hmanifests⟩

end

/-! ## The directory in every state -/

/-- In every state of exports one after the other, `latest.json` points at a manifest that
    is present with its signature, and its range files are present and valid. A manifest is
    never replaced, and its range files stay valid. Rows with one start height and one start
    of the digest have the length and the digest of one blob. -/
theorem snapshot_directory_safe [Blake3] [ManifestJson ν] [SigningKey κ]
    {Rows : ManifestEntry ν → Prop}
    (hdistinct : ∀ row row', Rows row → Rows row' → RangePath.of row = RangePath.of row' →
      row.blobLen = row'.blobLen ∧ row.blobDigest = row'.blobDigest)
    {x : ExportSystem ν} (hreached : x.Reached κ Rows) :
    (∀ bytes, x.world.files .latest = some bytes →
      ∃ (key : κ) (path : ManifestPath) (manifest : Manifest ν),
        bytes = pointerJson key ⟨path, manifest.sealedThrough⟩ ∧ x.world.Holds path manifest ∧
        x.world.files (.signature path) = some (signatureHex key (manifestJson manifest))) ∧
    ∀ path bytes, x.world.files (.manifest path) = some bytes →
      ∃ manifest : Manifest ν, bytes = manifestJson manifest ∧
        ∀ y : ExportSystem ν, ReflTransGen (ExportSystem.Step κ Rows) x y →
          y.world.Holds path manifest := by
  have hsafe := hreached.safe
  constructor
  · intro bytes hlatest
    obtain ⟨key, path, manifest, hpoints⟩ := hsafe.files.latest bytes hlatest
    refine ⟨key, path, manifest, hpoints.pointer, ?_, hpoints.signature⟩
    exact hsafe.files.holds hdistinct hpoints.present hpoints.covers
  · intro path bytes hfile
    obtain ⟨manifest, rfl, hcovers⟩ := hsafe.files.manifests path bytes hfile
    refine ⟨manifest, rfl, ?_⟩
    intro y hsteps
    obtain ⟨hsafe', hkeeps⟩ := hsafe.run hsteps
    apply hsafe'.files.holds hdistinct (hkeeps.manifests path _ hfile)
    intro entry hentry
    obtain ⟨hrow, blob, hblob⟩ := hcovers entry hentry
    exact ⟨hrow, hkeeps.ranges _ blob hblob⟩

/-- Rows that describe blobs, whose digests differ in the first four bytes, have one blob
    when they have one path. -/
theorem RangePath.distinct_of_blobs [Blake3] {Rows : ManifestEntry ν → Prop}
    {Blobs : Bytes → Prop}
    (hrows : ∀ row, Rows row → ∃ blob, Blobs blob ∧ row.checkBlob blob = .ok ())
    (hdigests : ∀ blob blob', Blobs blob → Blobs blob' →
      (Blake3.hash blob).val.take 4 = (Blake3.hash blob').val.take 4 → blob = blob')
    (row row' : ManifestEntry ν) (hrow : Rows row) (hrow' : Rows row')
    (hpath : RangePath.of row = RangePath.of row') :
    row.blobLen = row'.blobLen ∧ row.blobDigest = row'.blobDigest := by
  obtain ⟨blob, hblob, hcheck⟩ := hrows row hrow
  obtain ⟨blob', hblob', hcheck'⟩ := hrows row' hrow'
  rw [ManifestEntry.checkBlob_eq_ok] at hcheck hcheck'
  have hstart := congrArg (·.digestStart.val) hpath
  obtain rfl : blob = blob' := by
    apply hdigests blob blob' hblob hblob'
    rw [hcheck.2, hcheck'.2]
    exact hstart
  exact ⟨Fin.ext (hcheck.1.symm.trans hcheck'.1), hcheck.2.symm.trans hcheck'.2⟩

section

attribute [local instance] headDigest digestsJson secondsKey

/-- The index changes between two exports. The pointer is at the second manifest, and both
    manifests have their range files. -/
theorem snapshot_directory_two : ∃ (x y : ExportSystem Unit) (first second : Manifest Unit),
    x.Reached Unit ByteRows ∧ ReflTransGen (ExportSystem.Step Unit ByteRows) x y ∧
    x.world.files .latest = some (leBytes 8 0) ∧ y.world.files .latest = some (leBytes 8 1) ∧
    manifestJson first = (Blake3.hash [7]).val ∧ manifestJson second = (Blake3.hash [8]).val ∧
    y.world.Holds ⟨⟨0, 0⟩⟩ first ∧ y.world.Holds ⟨⟨1, 0⟩⟩ second := by
  have hdistinct := @RangePath.distinct_of_blobs Unit _ ByteRows (∃ b, · = [b])
    (by rintro _ ⟨b, rfl⟩; exact ⟨[b], ⟨b, rfl⟩, ManifestEntry.checkBlob_eq_ok.mpr ⟨rfl, rfl⟩⟩)
    (by rintro _ _ ⟨b, rfl⟩ ⟨b', rfl⟩ h; cases (List.cons.inj h).1; rfl)
  let run (now : DateTime) := SnapshotExport.run (ν := Unit) "Mainnet" (.ofNat 32 0) now
    (⟨()⟩ : SnapshotWriter Unit)
  obtain ⟨out, w, hrun, hlatest, hmanifests⟩ := run_byteIndex 7
    (w := ⟨byteIndex 7, fun _ => none, fun _ => none⟩) rfl ⟨0, 0⟩ rfl
  have hsteps := ExportSystem.steps_run Unit ByteRows (run ⟨0, 0⟩)
    ⟨byteIndex 7, fun _ => none, fun _ => none⟩
  rw [hrun] at hsteps
  have hreached : (⟨w, some (.done (.ok out))⟩ : ExportSystem Unit).Reached Unit ByteRows :=
    ⟨⟨_, none⟩, ⟨rowsIn_byteIndex 7, fun _ => rfl, rfl⟩, .head (.start _ _ _ _ rfl) hsteps⟩
  obtain ⟨out', w', hrun', hlatest', hmanifests'⟩ := run_byteIndex 8
    (w := { w with index := byteIndex 8 }) rfl ⟨1, 0⟩ (hmanifests _)
  have hsteps' := ExportSystem.steps_run Unit ByteRows (run ⟨1, 0⟩) { w with index := byteIndex 8 }
  rw [hrun'] at hsteps'
  have hrestart : ReflTransGen (ExportSystem.Step Unit ByteRows) ⟨w, some (.done (.ok out))⟩
      ⟨{ w with index := byteIndex 8 }, some (run ⟨1, 0⟩)⟩ :=
    .head (.stop w.temps) (.head (.index (rowsIn_byteIndex 8)) (.single (.start _ _ _ _ rfl)))
  have hsteps' := hrestart.trans hsteps'
  obtain ⟨-, hkeeps⟩ := snapshot_directory_safe hdistinct hreached
  obtain ⟨first, hfirst, hholds⟩ := hkeeps ⟨⟨0, 0⟩⟩ _ (hmanifests _)
  obtain ⟨-, hkeeps'⟩ := snapshot_directory_safe hdistinct
    (hreached.imp fun _ h => And.intro h.1 (h.2.trans hsteps'))
  obtain ⟨second, hsecond, hholds'⟩ := hkeeps' ⟨⟨1, 0⟩⟩ _ (hmanifests' _)
  exact ⟨_, _, first, second, hreached, hsteps', hlatest, hlatest', hfirst.symm, hsecond.symm,
    hholds _ hsteps', hholds' _ .refl⟩

end

end Ztreamer
