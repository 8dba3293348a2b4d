import Chronogram.DesignFile
import Chronogram.Path
import Chronogram.Primitives
import Chronogram.Yaml.Value

/-! Designs that are spread over several files. A file imports the signatures of other files and of
those that they import in turn; a file that is being read may not be imported again. A file that was
imported before is not read a second time. -/

namespace Chronogram

/-- How texts are taken apart, and what the name of a file stands for as seen from a directory. -/
structure Loader where
  datum? : String → Option Datum
  resolve : Path → String → Path

def Loader.standard : Loader := ⟨Yaml.parse?, Path.resolve⟩

/-- What a design hands on to those that import it. -/
def Design.exports (d : Design) : List Signature := d.imported ++ d.components.map (·.signature)

structure Files where
  entries : List (Path × String)

namespace Files

def text? (files : Files) (path : Path) : Option String := files.entries.lookup path

/-- The number of files that are not being read. -/
def unread (files : Files) (reading : List Path) : Nat :=
  (files.entries.filter fun e => !reading.contains e.1).length

/-- The fault that a path has no text: it names nothing, or a directory. -/
def missing (files : Files) (path : Path) : Fault :=
  if files.entries.any (·.1.isBelow path) then .isDirectory path.text
  else .placed none none (.fileNotFound path.text)

theorem mem_of_text? {files : Files} {path : Path} {text : String}
    (h : files.text? path = some text) : (path, text) ∈ files.entries := by
  unfold text? at h
  generalize files.entries = entries at h
  induction entries with
  | nil => simp at h
  | cons e rest ih =>
    obtain ⟨p, t⟩ := e
    rw [List.lookup_cons] at h
    by_cases hp : path = p
    · subst hp
      simp at h
      simp [h]
    · have : (path == p) = false := by simpa using hp
      rw [this] at h
      exact List.mem_cons_of_mem _ (ih h)

/-- Every file that is begun leaves fewer to begin. -/
theorem unread_lt {files : Files} {reading : List Path} {path : Path} {text : String}
    (h : files.text? path = some text) (hr : reading.contains path = false) :
    files.unread (path :: reading) < files.unread reading := by
  have hm := mem_of_text? h
  unfold unread
  rw [← List.countP_eq_length_filter, ← List.countP_eq_length_filter]
  generalize files.entries = entries at hm
  induction entries with
  | nil => simp at hm
  | cons e rest ih =>
    have hle : rest.countP (fun e => !(path :: reading).contains e.1) ≤
        rest.countP (fun e => !reading.contains e.1) := by
      apply List.countP_mono_left
      intro x _ hx
      simp at hx ⊢
      exact hx.2
    rcases List.mem_cons.1 hm with rfl | hm
    · rw [List.countP_cons_of_neg (by simp), List.countP_cons_of_pos (by simpa using hr)]
      omega
    · have := ih hm
      by_cases hp : e.1 = path
      · rw [List.countP_cons_of_neg (by simp [hp]), List.countP_cons_of_pos (by simpa [hp] using hr)]
        omega
      · by_cases he : reading.contains e.1 = true
        · rw [List.countP_cons_of_neg (by simp_all), List.countP_cons_of_neg (by simpa using he)]
          exact this
        · rw [List.countP_cons_of_pos (by simp_all), List.countP_cons_of_pos (by simp_all)]
          omega

def addSignatures (known new : List Signature) : List Signature :=
  new.foldl (fun known s => if known.contains s then known else known ++ [s]) known

def parseFile (file : Option String) (text : String) (loader : Loader := .standard) :
    Except Fault DesignFile :=
  match loader.datum? text with
  | none => .error (.placed file none .malformed)
  | some d => DesignFile.ofDatum file d

def assemble (file : DesignFile) (imported : List Signature) (source : Option String) : Design where
  apiVersion := file.apiVersion
  name := file.name
  usePrimitives := file.usePrimitives
  components := file.components
  imported := imported
  source := source

mutual

/-- Reads the design in a file's text, while other files are being read. -/
def readDesign (files : Files) (loader : Loader) (reading : List Path) (path : Path) (text : String) :
    Except Fault Design := do
  let file ← parseFile path.text text loader
  let imported ← files.readImports loader reading path.text path.parent [] file.imports
  return assemble file imported path.text
termination_by (files.unread reading, 1, 0)

/-- Reads what the entries of a file name, one after the other and as seen from a directory. -/
def readImports (files : Files) (loader : Loader) (reading : List Path) (file : Option String)
    (dir : Path) (known : List Signature) : List ImportEntry → Except Fault (List Signature)
  | [] => return known
  | entry :: rest =>
    let target := loader.resolve dir entry.path
    if hr : reading.contains target then
      .error (.placed file (entry.line.map Int.ofNat) (.circularImport target.text))
    else
      match ht : files.text? target with
      | none => .error (files.missing target)
      | some text =>
        have : files.unread (target :: reading) < files.unread reading :=
          unread_lt ht (by simpa using hr)
        do
        let design ← files.readDesign loader (target :: reading) target text
        files.readImports loader reading file dir (addSignatures known design.exports) rest
termination_by entries => (files.unread reading, 0, entries.length)
decreasing_by
  · exact Prod.Lex.left _ _ this
  · simp_wf
    exact Prod.Lex.right _ (Prod.Lex.right _ (Nat.lt_succ_self _))

end

/-- The designs of the files that were imported so far. -/
abbrev Cache := List (Path × Design)

mutual

def fetchDesign (files : Files) (loader : Loader) (reading : List Path) (cache : Cache) (path : Path)
    (text : String) : Except Fault (Design × Cache) := do
  let file ← parseFile path.text text loader
  let found ← files.fetchImports loader reading path.text path.parent cache [] file.imports
  return (assemble file found.1 path.text, found.2)
termination_by (files.unread reading, 1, 0)

/-- As `readImports`, with a cache. A file is kept there when all that it imports is read as well. -/
def fetchImports (files : Files) (loader : Loader) (reading : List Path) (file : Option String)
    (dir : Path) (cache : Cache) (known : List Signature) :
    List ImportEntry → Except Fault (List Signature × Cache)
  | [] => return (known, cache)
  | entry :: rest =>
    let target := loader.resolve dir entry.path
    if hr : reading.contains target then
      .error (.placed file (entry.line.map Int.ofNat) (.circularImport target.text))
    else
      match cache.lookup target with
      | some design =>
        files.fetchImports loader reading file dir cache (addSignatures known design.exports) rest
      | none =>
        match ht : files.text? target with
        | none => .error (files.missing target)
        | some text =>
          have : files.unread (target :: reading) < files.unread reading :=
            unread_lt ht (by simpa using hr)
          do
          let found ← files.fetchDesign loader (target :: reading) cache target text
          files.fetchImports loader reading file dir ((target, found.1) :: found.2)
            (addSignatures known found.1.exports) rest
termination_by entries => (files.unread reading, 0, entries.length)
decreasing_by
  · simp_wf
    exact Prod.Lex.right _ (Prod.Lex.right _ (Nat.lt_succ_self _))
  · exact Prod.Lex.left _ _ this
  · simp_wf
    exact Prod.Lex.right _ (Prod.Lex.right _ (Nat.lt_succ_self _))

end

/-- Reads the design in a file, which does not count as being read itself. -/
def load (files : Files) (path : Path) (loader : Loader := .standard) : Except Fault Design :=
  match files.text? path with
  | none => .error (files.missing path)
  | some text => return (← files.fetchDesign loader [] [] path text).1

end Files

def Design.ofText (text : String) (loader : Loader := .standard) : Except Fault Design := do
  let file ← Files.parseFile none text loader
  let imported ← Files.readImports ⟨[]⟩ loader [] none ⟨[]⟩ [] file.imports
  return Files.assemble file imported none

namespace Primitives

def load (files : Files) (path : Path) (loader : Loader := .standard) :
    Except Fault (List Signature) :=
  match files.text? path with
  | none => .error .noPrimitives
  | some _ => do ofDesign path.text (← files.load path loader)

end Primitives

end Chronogram
