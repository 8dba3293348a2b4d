import Chronogram.Imports
import Chronogram.Proofs.Fallible
import Mathlib.Data.List.Nodup
import Mathlib.Logic.Relation

/-! The graph of imports. Its nodes are paths, and a file leads to those that its entries name. A file is
read while the files on a way to it are being read, so an entry that leads back to one of these
closes a cycle, and without such an entry the whole of what can be reached is gone through. That the
reading comes to an end is part of its definition: it begins each file at most once on a way. -/

section

open Relation (TransGen ReflTransGen)

namespace Chronogram

open Fallible

namespace Fault

def IsUnreadable (f : Fault) : Prop := ∃ what text cause, f = .unreadable what text cause

def isCircular : Fault → Bool
  | .placed _ _ (.circularImport _) => true
  | _ => false

/-- A fault that can arise in a single file. -/
def IsLocal (f : Fault) : Prop := f.isCircular = false

end Fault

theorem Reader.fails_whole {α : Type} (p : Reader α) (what : Phrase) (s : String) :
    Fails Fault.IsUnreadable (p.whole what s) := by
  unfold whole
  split
  · exact fails_pure _
  · exact fails_error ⟨_, _, _, rfl⟩
  · exact fails_error ⟨_, _, _, rfl⟩

theorem Port.fails_parse (s direction : String) (loc : Option Loc) :
    Fails Fault.IsUnreadable (Port.parse s direction loc) := by
  rw [Port.parse]
  refine (Reader.fails_whole .port .port s).bind fun found => ?_
  dsimp only
  split
  · exact fails_pure _
  · exact fails_error ⟨_, _, _, rfl⟩

theorem Checked.fails_finish {α : Type} (model : Model) (x : Checked α) :
    Fails Fault.IsLocal (x.finish model) := by
  unfold finish
  split
  · exact fails_pure _
  · split
    · exact fails_error rfl
    · exact fails_error rfl

namespace DesignFile

/-! What stands in a single file is no reason for a circular import. -/

theorem fails_readText {α : Type} {parse : String → Option Loc → Except Fault α}
    (h : ∀ s loc, Fails Fault.IsUnreadable (parse s loc)) (file : Option String) (d : Datum) :
    Fails Fault.IsLocal (readText file parse d) := by
  refine (h _ _).mapError ?_
  rintro _ ⟨what, text, cause, rfl⟩
  rfl

theorem fails_readParameter (file : Option String) (d : Datum) :
    Fails Fault.IsLocal (readParameter file d) := by
  unfold readParameter
  split
  · exact (Checked.fails_finish _ _).bind fun p => fails_pure _
  · exact fails_readText (fun _ _ => (Reader.fails_whole _ _ _).bind fun _ => fails_pure _) _ _

theorem fails_readEvent (file : Option String) (d : Datum) :
    Fails Fault.IsLocal (readEvent file d) := by
  unfold readEvent
  split
  · exact (Checked.fails_finish _ _).bind fun e => fails_pure _
  · exact fails_readText (fun _ _ => (Reader.fails_whole _ _ _).bind fun _ => fails_pure _) _ _

theorem fails_readPort (file : Option String) (direction : Direction) (d : Datum) :
    Fails Fault.IsLocal (readPort file direction d) := by
  unfold readPort
  split
  · exact (Checked.fails_finish _ _).bind fun p => fails_pure _
  · exact fails_readText (fun s loc => Port.fails_parse s _ loc) _ _

theorem fails_readClause (file : Option String) (d : Datum) :
    Fails Fault.IsLocal (readClause file d) :=
  fails_readText (fun _ _ => (Reader.fails_whole _ _ _).bind fun _ => fails_pure _) _ _

theorem fails_itemsOf (es : Entries) (name : String) : Fails Fault.IsLocal (itemsOf es name) := by
  unfold itemsOf
  split
  · exact fails_pure _
  next d _ =>
    cases d.elements? with
    | none => exact fails_error rfl
    | some ds => exact fails_pure _

theorem fails_unknownKeys (es : Entries) (known : List String) :
    Fails Fault.IsLocal (unknownKeys es known) := by
  refine (Fails.mapM (fun e => ?_) _).bind fun names => fails_pure _
  split
  · exact fails_pure _
  · exact fails_error rfl

theorem fails_readSignature (file : Option String) (es : Entries) (name : Datum) :
    Fails Fault.IsLocal (readSignature file es name) :=
  (fails_itemsOf _ _).bind fun _ => (Fails.mapM (fails_readParameter file) _).bind fun _ =>
  (fails_itemsOf _ _).bind fun _ => (Fails.mapM (fails_readEvent file) _).bind fun _ =>
  (fails_itemsOf _ _).bind fun _ => (Fails.mapM (fails_readPort file _) _).bind fun _ =>
  (fails_itemsOf _ _).bind fun _ => (Fails.mapM (fails_readPort file _) _).bind fun _ =>
  (fails_itemsOf _ _).bind fun _ => (Fails.mapM (fails_readClause file) _).bind fun _ =>
  Checked.fails_finish _ _

theorem fails_readBody (file : Option String) (d : Datum) : Fails Fault.IsLocal (readBody file d) := by
  unfold readBody
  split
  · refine (Fails.mapM (fails_readText (fun s loc => ?_) file) _).bind fun _ => fails_pure _
    exact (Reader.fails_whole _ _ _).bind fun _ => fails_pure _
  · exact fails_error rfl

theorem isLocal_inComponent {file : Option String} {name : Datum} {f : Fault} (h : f.IsLocal) :
    (inComponent file name f).IsLocal := by
  unfold inComponent
  split
  · exact h
  · rfl

theorem fails_readComponent (file : Option String) (index : Nat) (d : Datum) :
    Fails Fault.IsLocal (readComponent file index d) := by
  unfold readComponent
  split
  · split
    next name _ =>
      refine (fails_unknownKeys _ _).bind fun unknown => ?_
      dsimp only
      split
      · exact fails_error rfl
      · refine ((fails_readSignature _ _ _).mapError fun _ => isLocal_inComponent).bind fun s => ?_
        split
        · exact fails_pure _
        · split
          · exact fails_error rfl
          · exact (fails_readBody _ _).bind fun b => fails_pure _
    · exact fails_error rfl
  · exact fails_error rfl

theorem fails_ofDatum (file : Option String) (d : Datum) :
    Fails Fault.IsLocal (ofDatum file d) := by
  unfold ofDatum
  split
  · refine (fails_unknownKeys _ _).bind fun unknown => ?_
    dsimp only
    split
    · exact fails_error rfl
    · refine (fails_itemsOf _ _).bind fun items => ?_
      refine (Fails.mapM (fun x : Datum × Nat => fails_readComponent file x.2 x.1) _).bind fun components => ?_
      exact (fails_itemsOf _ _).bind fun imports => fails_pure _
  · exact fails_error rfl

end DesignFile

namespace Files

variable {files : Files} {loader : Loader} {reading : List Path} {main p q : Path} {d : Design}

theorem mem_addSignatures {known new : List Signature} {s : Signature} :
    s ∈ addSignatures known new ↔ s ∈ known ∨ s ∈ new := by
  unfold addSignatures
  induction new generalizing known with
  | nil => simp
  | cons first new ih =>
    rw [List.foldl_cons, ih]
    split
    next h =>
      have hfirst : first ∈ known := by simpa using h
      rw [List.mem_cons]
      constructor
      · rintro (hs | hs)
        · exact .inl hs
        · exact .inr (.inr hs)
      · rintro (hs | rfl | hs)
        · exact .inl hs
        · exact .inl hfirst
        · exact .inr hs
    · simp [or_assoc]

theorem nodup_addSignatures {known new : List Signature} (h : known.Nodup) :
    (addSignatures known new).Nodup := by
  unfold addSignatures
  induction new generalizing known with
  | nil => exact h
  | cons first new ih =>
    rw [List.foldl_cons]
    apply ih
    split
    · exact h
    next hnew => exact h.append (List.nodup_singleton _) (by simpa using hnew)

def parse (files : Files) (loader : Loader) (path : Path) : Except Fault DesignFile :=
  match files.text? path with
  | none => .error (files.missing path)
  | some text => parseFile path.text text loader

theorem fails_parse (files : Files) (loader : Loader) (path : Path) :
    Fails Fault.IsLocal (files.parse loader path) := by
  unfold parse missing parseFile
  split
  · split
    · exact fails_error rfl
    · exact fails_error rfl
  · split
    · exact fails_error rfl
    · exact DesignFile.fails_ofDatum _ _

def read (files : Files) (loader : Loader) (reading : List Path) (path : Path) : Except Fault Design := do
  let file ← files.parse loader path
  let imported ← files.readImports loader reading path.text path.parent [] file.imports
  return assemble file imported path.text

theorem read_of_text? {text : String} (h : files.text? p = some text) :
    files.read loader reading p = files.readDesign loader reading p text := by
  rw [readDesign, read, parse, h]

theorem read_of_missing (h : files.text? p = none) : files.read loader reading p = .error (files.missing p) := by
  rw [read, parse, h]
  rfl

theorem readImports_cons {source : Option String} {dir : Path} {known : List Signature}
    {entry : ImportEntry} {rest : List ImportEntry} :
    files.readImports loader reading source dir known (entry :: rest) =
      if loader.resolve dir entry.path ∈ reading then
        .error (.placed source (entry.line.map Int.ofNat) (.circularImport (loader.resolve dir entry.path).text))
      else
        files.read loader (loader.resolve dir entry.path :: reading) (loader.resolve dir entry.path) >>= fun d =>
          files.readImports loader reading source dir (addSignatures known d.exports) rest := by
  rw [readImports]
  by_cases hr : loader.resolve dir entry.path ∈ reading
  · rw [dif_pos (by simpa using hr), if_pos hr]
  · rw [dif_neg (by simpa using hr), if_neg hr]
    split
    next h => rw [read_of_missing h]; rfl
    next text h => rw [read_of_text? h]

/-- Entries are read when each of them is, and what they bring comes together in their order. -/
theorem readImports_eq_ok {source : Option String} {dir : Path} {known imported : List Signature}
    {entries : List ImportEntry} :
    files.readImports loader reading source dir known entries = .ok imported ↔
      ∃ designs, List.Forall₂ (fun e d => loader.resolve dir e.path ∉ reading ∧
          files.read loader (loader.resolve dir e.path :: reading) (loader.resolve dir e.path) = .ok d)
          entries designs ∧
        imported = designs.foldl (fun known d => addSignatures known d.exports) known := by
  induction entries generalizing known with
  | nil =>
    rw [readImports, pure_eq_ok]
    simp [eq_comm]
  | cons entry rest ih =>
    rw [readImports_cons]
    split
    next hr =>
      constructor
      · intro h
        cases h
      · rintro ⟨_, _ | ⟨⟨hnot, -⟩, -⟩, -⟩
        exact absurd hr hnot
    next hr =>
      simp only [bind_eq_ok, ih]
      constructor
      · rintro ⟨d, hd, designs, hrest, rfl⟩
        exact ⟨d :: designs, .cons ⟨hr, hd⟩ hrest, rfl⟩
      · rintro ⟨_, _ | ⟨⟨-, hd⟩, hrest⟩, rfl⟩
        exact ⟨_, hd, _, hrest, rfl⟩

/-- Entries that cannot be read hold one that is at fault. -/
theorem readImports_eq_error {source : Option String} {dir : Path} {known : List Signature}
    {entries : List ImportEntry} {fault : Fault}
    (h : files.readImports loader reading source dir known entries = .error fault) :
    ∃ e ∈ entries,
      (loader.resolve dir e.path ∈ reading ∧ fault = .placed source (e.line.map Int.ofNat)
        (.circularImport (loader.resolve dir e.path).text)) ∨
      loader.resolve dir e.path ∉ reading ∧
        files.read loader (loader.resolve dir e.path :: reading) (loader.resolve dir e.path) = .error fault := by
  induction entries generalizing known with
  | nil =>
    rw [readImports] at h
    cases h
  | cons entry rest ih =>
    rw [readImports_cons] at h
    split at h
    next hr => exact ⟨entry, by simp, .inl ⟨hr, (Except.error.inj h).symm⟩⟩
    next hr =>
      cases hread : files.read loader (loader.resolve dir entry.path :: reading)
        (loader.resolve dir entry.path) with
      | error e =>
        rw [hread] at h
        obtain rfl : e = fault := Except.error.inj h
        exact ⟨entry, by simp, .inr ⟨hr, hread⟩⟩
      | ok d =>
        rw [hread] at h
        obtain ⟨e, he, hfault⟩ := ih h
        exact ⟨e, by simp [he], hfault⟩

theorem mem_foldl_addSignatures {designs : List Design} {known : List Signature} {s : Signature} :
    s ∈ designs.foldl (fun known d => addSignatures known d.exports) known ↔
      s ∈ known ∨ ∃ d ∈ designs, s ∈ d.exports := by
  induction designs generalizing known with
  | nil => simp
  | cons d designs ih => simp [ih, mem_addSignatures, or_assoc]

theorem nodup_foldl_addSignatures {designs : List Design} {known : List Signature} (h : known.Nodup) :
    (designs.foldl (fun known d => addSignatures known d.exports) known).Nodup := by
  induction designs generalizing known with
  | nil => exact h
  | cons d designs ih => exact ih (nodup_addSignatures h)

def Imports (files : Files) (loader : Loader) (p q : Path) : Prop :=
  ∃ file, files.parse loader p = .ok file ∧ ∃ e ∈ file.imports, loader.resolve p.parent e.path = q

def Declares (files : Files) (loader : Loader) (p : Path) (s : Signature) : Prop :=
  ∃ file, files.parse loader p = .ok file ∧ ∃ c ∈ file.components, c.signature = s

/-- A file from which a way leads on to itself can be reached. -/
def Cyclic (files : Files) (loader : Loader) (main : Path) : Prop :=
  ∃ p, ReflTransGen (files.Imports loader) main p ∧ TransGen (files.Imports loader) p p

/-- What a file has read when it is read itself: each file that it imports, while this is added to the
files that are being read. -/
theorem step_of_read (h : files.read loader reading p = .ok d) :
    d.imported.Nodup ∧
    (∀ q, files.Imports loader p q → q ∉ reading ∧ ∃ d', files.read loader (q :: reading) q = .ok d') ∧
    (∀ s, s ∈ d.imported ↔
      ∃ q d', files.Imports loader p q ∧ files.read loader (q :: reading) q = .ok d' ∧ s ∈ d'.exports) ∧
    ∀ s, s ∈ d.components.map (·.signature) ↔ files.Declares loader p s := by
  simp only [read, bind_eq_ok, pure_eq_ok] at h
  obtain ⟨file, hfile, imported, himported, rfl⟩ := h
  obtain ⟨designs, hdesigns, rfl⟩ := readImports_eq_ok.1 himported
  have hsame : ∀ file', files.parse loader p = .ok file' → file' = file :=
    fun file' hfile' => Except.ok.inj (hfile'.symm.trans hfile)
  refine ⟨nodup_foldl_addSignatures List.nodup_nil, ?_, fun s => ?_, fun s => ?_⟩
  · rintro q ⟨file', hfile', e, he, rfl⟩
    obtain rfl := hsame file' hfile'
    obtain ⟨d', -, hq, hd'⟩ := exists_right_of_forall₂ hdesigns he
    exact ⟨hq, d', hd'⟩
  · refine mem_foldl_addSignatures.trans ⟨?_, ?_⟩
    · rintro (hs | ⟨d', hd', hs⟩)
      · cases hs
      · obtain ⟨e, he, -, hread⟩ := exists_left_of_forall₂ hdesigns hd'
        exact ⟨_, d', ⟨file, hfile, e, he, rfl⟩, hread, hs⟩
    · rintro ⟨q, d', ⟨file', hfile', e, he, rfl⟩, hread, hs⟩
      obtain rfl := hsame file' hfile'
      obtain ⟨d'', hmem, -, hread'⟩ := exists_right_of_forall₂ hdesigns he
      obtain rfl := Except.ok.inj (hread.symm.trans hread')
      exact .inr ⟨d', hmem, hs⟩
  · constructor
    · intro hs
      obtain ⟨c, hc, rfl⟩ := List.mem_map.1 hs
      exact ⟨file, hfile, c, hc, rfl⟩
    · rintro ⟨file', hfile', c, hc, rfl⟩
      obtain rfl := hsame file' hfile'
      exact List.mem_map_of_mem hc

/-- A file that can be reached is read in turn, while all files that were being read still are. -/
theorem read_of_reachable (h : files.read loader reading p = .ok d) (hpq : TransGen (files.Imports loader) p q) :
    q ∉ reading ∧ ∃ more d', files.read loader (q :: more) q = .ok d' ∧ ∀ r ∈ reading, r ∈ more := by
  induction hpq with
  | single hstep =>
    obtain ⟨-, hread, -⟩ := step_of_read h
    obtain ⟨hfree, d', hd'⟩ := hread _ hstep
    exact ⟨hfree, reading, d', hd', fun r hr => hr⟩
  | @tail q q' _ hstep ih =>
    obtain ⟨-, more, d', hd', hmore⟩ := ih
    obtain ⟨-, hread, -⟩ := step_of_read hd'
    obtain ⟨hfree, d'', hd''⟩ := hread _ hstep
    have hkept : ∀ r ∈ reading, r ∈ q :: more := fun r hr => List.mem_cons_of_mem _ (hmore r hr)
    exact ⟨fun hr => hfree (hkept _ hr), q :: more, d'', hd'', hkept⟩

theorem acyclic_of_read (h : files.read loader (p :: reading) p = .ok d) : ¬ TransGen (files.Imports loader) p p :=
  fun hcycle => (read_of_reachable h hcycle).1 (by simp)

theorem not_cyclic_of_read (h : files.read loader reading p = .ok d) : ¬ files.Cyclic loader p := by
  rintro ⟨q, hpq, hcycle⟩
  obtain ⟨-, more, d', hd', -⟩ := read_of_reachable h (hcycle.trans_right hpq)
  exact acyclic_of_read hd' hcycle

theorem unread_lt_of_parse {file : DesignFile} (h : files.parse loader q = .ok file) (hq : q ∉ reading) :
    files.unread (q :: reading) < files.unread reading := by
  unfold parse at h
  split at h
  · cases h
  next text ht => exact unread_lt ht (by simpa using hq)

theorem exists_parse_of_read (h : files.read loader reading p = .ok d) :
    ∃ file, files.parse loader p = .ok file := by
  simp only [read, bind_eq_ok] at h
  obtain ⟨file, hfile, -⟩ := h
  exact ⟨file, hfile⟩

/-- What a design imports is what the files say that can be reached from its own. -/
theorem mem_imported_iff {s : Signature} (h : files.read loader reading p = .ok d) :
    s ∈ d.imported ↔ ∃ q, TransGen (files.Imports loader) p q ∧ files.Declares loader q s := by
  constructor
  · -- each file that is begun leaves fewer to begin
    induction hn : files.unread reading using Nat.strongRecOn generalizing reading p d with
    | _ n ih =>
      intro hs
      obtain ⟨-, hfree, himported, -⟩ := step_of_read h
      obtain ⟨q, d', hpq, hd', hs⟩ := (himported s).1 hs
      obtain ⟨-, -, -, hdeclared⟩ := step_of_read hd'
      rcases List.mem_append.1 hs with hs | hs
      · obtain ⟨file, hfile⟩ := exists_parse_of_read hd'
        have hlt := unread_lt_of_parse hfile (hfree q hpq).1
        obtain ⟨q', hqq', hq'⟩ := ih _ (hn ▸ hlt) hd' rfl hs
        exact ⟨q', .head hpq hqq', hq'⟩
      · exact ⟨q, .single hpq, (hdeclared s).1 hs⟩
  · rintro ⟨q, hpq, hdeclares⟩
    induction hpq using TransGen.head_induction_on generalizing reading d with
    | single hstep =>
      obtain ⟨-, hfree, himported, -⟩ := step_of_read h
      obtain ⟨-, d', hd'⟩ := hfree _ hstep
      obtain ⟨-, -, -, hdeclared⟩ := step_of_read hd'
      exact (himported s).2 ⟨q, d', hstep, hd', List.mem_append_right _ ((hdeclared s).2 hdeclares)⟩
    | head hstep _ ih =>
      obtain ⟨-, hfree, himported, -⟩ := step_of_read h
      obtain ⟨-, d', hd'⟩ := hfree _ hstep
      exact (himported s).2 ⟨_, d', hstep, hd', List.mem_append_left _ (ih hd')⟩

/-- A file that cannot be read is at fault by itself, or imports one that is being read or cannot be
read either. -/
theorem step_of_fault {fault : Fault} (h : files.read loader reading p = .error fault) :
    files.parse loader p = .error fault ∨ ∃ q, files.Imports loader p q ∧
      ((q ∈ reading ∧ ∃ line, fault = .placed p.text line (.circularImport q.text)) ∨
        q ∉ reading ∧ files.read loader (q :: reading) q = .error fault) := by
  simp only [read, bind_eq_error] at h
  obtain hparse | ⟨file, hparse, himports | ⟨imported, -, h⟩⟩ := h
  · exact .inl hparse
  · obtain ⟨e, he, ⟨hq, rfl⟩ | hq⟩ := readImports_eq_error himports
    · exact .inr ⟨_, ⟨file, hparse, e, he, rfl⟩, .inl ⟨hq, _, rfl⟩⟩
    · exact .inr ⟨_, ⟨file, hparse, e, he, rfl⟩, .inr hq⟩
  · cases h

/-- A way from a file that cannot be read leads to one that is at fault by itself, or to an entry that
closes a cycle. -/
theorem fault_of_read {fault : Fault} (hreading : ∀ r ∈ reading, ReflTransGen (files.Imports loader) r p)
    (h : files.read loader reading p = .error fault) :
    (∃ q, ReflTransGen (files.Imports loader) p q ∧ files.parse loader q = .error fault) ∨
    ∃ q q' line, ReflTransGen (files.Imports loader) p q ∧ files.Imports loader q q' ∧
      ReflTransGen (files.Imports loader) q' q ∧ fault = .placed q.text line (.circularImport q'.text) := by
  induction hn : files.unread reading using Nat.strongRecOn generalizing reading p with
  | _ n ih =>
    obtain hparse | ⟨q, hpq, ⟨hq, line, rfl⟩ | ⟨hq, hread⟩⟩ := step_of_fault h
    · exact .inl ⟨p, .refl, hparse⟩
    · exact .inr ⟨p, q, line, .refl, hpq, hreading q hq, rfl⟩
    · -- only a file that has a text is begun, and leaves fewer to begin
      cases hparse : files.parse loader q with
      | error e =>
        rw [read, hparse] at hread
        obtain rfl : e = fault := Except.error.inj hread
        exact .inl ⟨q, .single hpq, hparse⟩
      | ok file =>
        have hreach : ∀ r ∈ q :: reading, ReflTransGen (files.Imports loader) r q := by
          rintro r (_ | ⟨_, hr⟩)
          · exact .refl
          · exact (hreading r hr).tail hpq
        obtain ⟨r, hqr, hfault⟩ | ⟨r, r', line, hqr, hcycle⟩ :=
          ih _ (hn ▸ unread_lt_of_parse hparse hq) hreach hread rfl
        · exact .inl ⟨r, .head hpq hqr, hfault⟩
        · exact .inr ⟨r, r', line, .head hpq hqr, hcycle⟩

/-- What is read does not depend on the files that are being read, as long as no way leads to them. -/
theorem read_of_free {other : List Path} (h : files.read loader reading p = .ok d)
    (hfree : ∀ q, TransGen (files.Imports loader) p q → q ∉ other) : files.read loader other p = .ok d := by
  induction hn : files.unread reading using Nat.strongRecOn generalizing reading other p d with
  | _ n ih =>
    simp only [read, bind_eq_ok, pure_eq_ok] at h ⊢
    obtain ⟨file, hfile, imported, himported, rfl⟩ := h
    obtain ⟨designs, hdesigns, rfl⟩ := readImports_eq_ok.1 himported
    refine ⟨file, hfile, _, readImports_eq_ok.2 ⟨designs, (forall₂_mem hdesigns).imp ?_, rfl⟩, rfl⟩
    rintro e d' ⟨he, -, hq, hd'⟩
    have hstep : files.Imports loader p (loader.resolve p.parent e.path) := ⟨file, hfile, e, he, rfl⟩
    obtain ⟨file', hfile'⟩ := exists_parse_of_read hd'
    refine ⟨hfree _ (.single hstep), ih _ (hn ▸ unread_lt_of_parse hfile' hq) hd' ?_ rfl⟩
    rintro q hq (_ | ⟨_, hother⟩)
    · exact acyclic_of_read hd' hq
    · exact hfree q (.head hstep hq) hother

/-- The designs in a cache are those of its files. -/
def Keeps (files : Files) (loader : Loader) (cache : Cache) : Prop :=
  ∀ q d, cache.lookup q = some d → ∃ reading, files.read loader (q :: reading) q = .ok d

theorem Keeps.cons {cache : Cache} (h : files.Keeps loader cache)
    (hq : files.read loader (q :: reading) q = .ok d) : files.Keeps loader ((q, d) :: cache) := by
  intro q' d' hlookup
  rw [List.lookup_cons] at hlookup
  split at hlookup
  next heq =>
    obtain rfl : q' = q := by simpa using heq
    obtain rfl := Option.some.inj hlookup
    exact ⟨reading, hq⟩
  · exact h q' d' hlookup

/-- A computation with a cache comes to the same end as one without. -/
inductive Fetches (files : Files) (loader : Loader) {α : Type} : Except Fault α → Except Fault (α × Cache) → Prop
  | ok {a : α} {cache : Cache} (h : files.Keeps loader cache) : Fetches files loader (.ok a) (.ok (a, cache))
  | error (e : Fault) : Fetches files loader (.error e) (.error e)

theorem Fetches.bind {α β : Type} {x : Except Fault α} {y : Except Fault (α × Cache)}
    {k : α → Except Fault β} {l : α × Cache → Except Fault (β × Cache)} (h : files.Fetches loader x y)
    (hk : ∀ a cache, x = .ok a → files.Keeps loader cache → files.Fetches loader (k a) (l (a, cache))) :
    files.Fetches loader (x >>= k) (y >>= l) := by
  cases h with
  | ok hcache => exact hk _ _ rfl hcache
  | error e => exact .error e

/-- A design from the cache is the one that would be read. -/
theorem Keeps.read {cache : Cache} (h : files.Keeps loader cache) (hd : cache.lookup q = some d)
    (hreading : ∀ r ∈ reading, TransGen (files.Imports loader) r q) :
    files.read loader (q :: reading) q = .ok d := by
  obtain ⟨other, hread⟩ := h q d hd
  have hcycle := acyclic_of_read hread
  -- a way back to a file that is being read would close a cycle through the one in the cache
  refine read_of_free hread ?_
  rintro r hr (_ | ⟨_, hmem⟩)
  · exact hcycle hr
  · exact hcycle (hr.trans (hreading r hmem))

theorem fetches_imports {source : Option String} {file : DesignFile} (hfile : files.parse loader p = .ok file)
    (hreading : ∀ r ∈ reading, ReflTransGen (files.Imports loader) r p)
    (hdesign : ∀ q text cache, files.Imports loader p q → q ∉ reading → files.text? q = some text →
      files.Keeps loader cache → files.Fetches loader (files.readDesign loader (q :: reading) q text)
        (files.fetchDesign loader (q :: reading) cache q text))
    {entries : List ImportEntry} (hentries : ∀ e ∈ entries, e ∈ file.imports) {cache : Cache}
    {known : List Signature} (hcache : files.Keeps loader cache) :
    files.Fetches loader (files.readImports loader reading source p.parent known entries)
      (files.fetchImports loader reading source p.parent cache known entries) := by
  induction entries generalizing cache known with
  | nil =>
    rw [readImports, fetchImports]
    exact .ok hcache
  | cons entry rest ih =>
    rw [List.forall_mem_cons] at hentries
    have hstep : files.Imports loader p (loader.resolve p.parent entry.path) :=
      ⟨file, hfile, entry, hentries.1, rfl⟩
    rw [readImports_cons, fetchImports]
    by_cases hr : loader.resolve p.parent entry.path ∈ reading
    · rw [if_pos hr, dif_pos (by simpa using hr)]
      exact .error _
    · rw [if_neg hr, dif_neg (by simpa using hr)]
      split
      next d hd =>
        rw [hcache.read hd fun r hr => .tail' (hreading r hr) hstep]
        exact ih hentries.2 hcache
      · split
        next ht =>
          rw [read_of_missing ht]
          exact .error _
        next text ht =>
          rw [read_of_text? ht]
          refine (hdesign _ text cache hstep hr ht hcache).bind fun d cache' hd hcache' => ?_
          exact ih hentries.2 (hcache'.cons ((read_of_text? ht).trans hd))

/-- The cache makes no difference: what is in it was read without a way back to where it is needed
again. -/
theorem fetches_design {text : String} {cache : Cache} (ht : files.text? p = some text)
    (hreading : ∀ r ∈ reading, ReflTransGen (files.Imports loader) r p) (hcache : files.Keeps loader cache) :
    files.Fetches loader (files.readDesign loader reading p text)
      (files.fetchDesign loader reading cache p text) := by
  induction hn : files.unread reading using Nat.strongRecOn generalizing reading p text cache with
  | _ n ih =>
    rw [readDesign, fetchDesign]
    cases hparse : parseFile p.text text loader with
    | error e => exact .error e
    | ok file =>
      have hfile : files.parse loader p = .ok file := by
        rw [parse, ht]
        exact hparse
      refine (fetches_imports hfile hreading ?_ (fun e he => he) hcache).bind fun _ _ _ hkept => .ok hkept
      intro q text' cache' hpq hq ht' hcache'
      refine ih _ (hn ▸ unread_lt ht' (by simpa using hq)) ht' ?_ hcache' rfl
      rintro r (_ | ⟨_, hr⟩)
      · exact .refl
      · exact (hreading r hr).tail hpq

theorem load_eq_read (files : Files) (loader : Loader) (path : Path) :
    files.load path loader = files.read loader [] path := by
  unfold load
  split
  next ht => rw [read_of_missing ht]
  next text ht =>
    rw [read_of_text? ht]
    have hempty : files.Keeps loader [] := by
      intro q d h
      cases h
    have hfetch : files.Fetches loader (files.readDesign loader [] path text)
        (files.fetchDesign loader [] [] path text) :=
      fetches_design ht (by simp) hempty
    generalize files.readDesign loader [] path text = x at hfetch ⊢
    generalize files.fetchDesign loader [] [] path text = y at hfetch ⊢
    cases hfetch with
    | ok _ => rfl
    | error e => rfl

/-- From every set of files and every main file: if a cycle can be reached, the file cannot be loaded; if
none can, it is loaded unless a file that can be reached is at fault by itself; and what is loaded
imports, without repetition, the signatures in the files to which one or more steps lead. -/
theorem import_closure (files : Files) (loader : Loader) (main : Path) :
    (files.Cyclic loader main → ∃ fault, files.load main loader = .error fault) ∧
    (¬ files.Cyclic loader main → ∀ fault, files.load main loader = .error fault → fault.isCircular = false ∧
      ∃ q, ReflTransGen (files.Imports loader) main q ∧ files.parse loader q = .error fault) ∧
    ∀ d, files.load main loader = .ok d → d.imported.Nodup ∧
      ∀ s, s ∈ d.imported ↔ ∃ q, TransGen (files.Imports loader) main q ∧ files.Declares loader q s := by
  rw [load_eq_read]
  refine ⟨fun hcycle => ?_, fun hacyclic fault hfault => ?_, fun d hd => ?_⟩
  · cases hread : files.read loader [] main with
    | error fault => exact ⟨fault, rfl⟩
    | ok d => exact absurd hcycle (not_cyclic_of_read hread)
  · obtain ⟨q, hq, hparse⟩ | ⟨q, q', line, hq, hstep, hback, -⟩ := fault_of_read (by simp) hfault
    · exact ⟨fails_parse files loader q fault hparse, q, hq, hparse⟩
    · exact absurd ⟨q, hq, .head' hstep hback⟩ hacyclic
  · exact ⟨(step_of_read hd).1, fun s => mem_imported_iff hd⟩

def outline (files : Files) (loader : Loader) : List (Path × Option (List String × List String)) :=
  files.entries.map fun e => (e.1, (files.parse loader e.1).toOption.map fun file =>
    (file.imports.map (·.path), file.components.map (·.name)))

theorem mem_outline {file : DesignFile} (h : files.parse loader p = .ok file) :
    (p, some (file.imports.map (·.path), file.components.map (·.name))) ∈ files.outline loader := by
  have htext := h
  unfold parse at htext
  split at htext
  · cases htext
  next text ht => exact List.mem_map.2 ⟨(p, text), mem_of_text? ht, by simp [h, Except.toOption]⟩

theorem exists_parse_of_mem_outline {paths names : List String}
    (h : (p, some (paths, names)) ∈ files.outline loader) :
    ∃ file, files.parse loader p = .ok file ∧ file.imports.map (·.path) = paths ∧
      file.components.map (·.name) = names := by
  obtain ⟨e, -, he⟩ := List.mem_map.1 h
  simp only [Prod.mk.injEq, Option.map_eq_some_iff, toOption_eq_some] at he
  obtain ⟨rfl, file, hfile, rfl, rfl⟩ := he
  exact ⟨file, hfile, rfl, rfl⟩

theorem imports_iff_outline : files.Imports loader p q ↔
    ∃ paths names, (p, some (paths, names)) ∈ files.outline loader ∧
      ∃ path ∈ paths, loader.resolve p.parent path = q := by
  constructor
  · rintro ⟨file, hfile, e, he, rfl⟩
    exact ⟨_, _, mem_outline hfile, e.path, List.mem_map_of_mem he, rfl⟩
  · rintro ⟨paths, names, h, path, hpath, rfl⟩
    obtain ⟨file, hfile, rfl, -⟩ := exists_parse_of_mem_outline h
    obtain ⟨e, he, rfl⟩ := List.mem_map.1 hpath
    exact ⟨file, hfile, e, he, rfl⟩

def ring : Files := ⟨[(⟨["m"]⟩, "imports: [a]"), (⟨["a"]⟩, "imports: [b]"), (⟨["b"]⟩, "imports: [a]")]⟩

def diamond : Files := ⟨[
  (⟨["m"]⟩, "imports: [aa, bb]"),
  (⟨["aa"]⟩, "imports: [ccc]"),
  (⟨["bb"]⟩, "imports: [ccc]"),
  (⟨["ccc"]⟩, "components:\n- name: C\n  events: [\"'G: 1\"]")]⟩

theorem cyclic_ring : ring.Cyclic .standard ⟨["m"]⟩ := by
  have houtline : ring.outline .standard = [(⟨["m"]⟩, some (["a"], [])), (⟨["a"]⟩, some (["b"], [])),
      (⟨["b"]⟩, some (["a"], []))] := by decide +kernel
  have hma : ring.Imports .standard ⟨["m"]⟩ ⟨["a"]⟩ :=
    imports_iff_outline.2 ⟨["a"], [], by rw [houtline]; simp, "a", by simp, by decide +kernel⟩
  have hab : ring.Imports .standard ⟨["a"]⟩ ⟨["b"]⟩ :=
    imports_iff_outline.2 ⟨["b"], [], by rw [houtline]; simp, "b", by simp, by decide +kernel⟩
  have hba : ring.Imports .standard ⟨["b"]⟩ ⟨["a"]⟩ :=
    imports_iff_outline.2 ⟨["a"], [], by rw [houtline]; simp, "a", by simp, by decide +kernel⟩
  exact ⟨_, .single hma, .tail (.single hab) hba⟩

theorem outline_diamond : diamond.outline .standard = [(⟨["m"]⟩, some (["aa", "bb"], [])),
    (⟨["aa"]⟩, some (["ccc"], [])), (⟨["bb"]⟩, some (["ccc"], [])), (⟨["ccc"]⟩, some ([], ["C"]))] := by
  decide +kernel

/-- Each entry of the diamond names one of its files, with a longer name than the file that it is in. -/
theorem imports_diamond (h : diamond.Imports .standard p q) :
    p.text.length < q.text.length ∧ ∃ file, diamond.parse .standard q = .ok file := by
  have hall : ∀ o ∈ diamond.outline .standard, ∀ x ∈ o.2, ∀ path ∈ x.1,
      o.1.text.length < (Path.resolve o.1.parent path).text.length ∧
        ∃ o' ∈ diamond.outline .standard, o'.1 = Path.resolve o.1.parent path ∧ o'.2 ≠ none := by
    rw [outline_diamond]
    decide +kernel
  obtain ⟨paths, names, hmem, path, hpath, rfl⟩ := imports_iff_outline.1 h
  obtain ⟨hlt, ⟨q, found⟩, hq, rfl, hsome⟩ := hall _ hmem _ rfl path hpath
  obtain ⟨⟨paths', names'⟩, rfl⟩ := Option.ne_none_iff_exists'.1 hsome
  obtain ⟨file, hfile, -⟩ := exists_parse_of_mem_outline hq
  exact ⟨hlt, file, hfile⟩

theorem not_cyclic_diamond : ¬ diamond.Cyclic .standard main := by
  rintro ⟨p, -, hcycle⟩
  have hlt : ∀ {q}, TransGen (diamond.Imports .standard) p q → p.text.length < q.text.length := by
    intro q hpq
    induction hpq with
    | single hstep => exact (imports_diamond hstep).1
    | tail _ hstep ih => exact Nat.lt_trans ih (imports_diamond hstep).1
  exact Nat.lt_irrefl _ (hlt hcycle)

theorem exists_parse_diamond (h : ReflTransGen (diamond.Imports .standard) ⟨["m"]⟩ p) :
    ∃ file, diamond.parse .standard p = .ok file := by
  cases h with
  | refl =>
    have hmem : (⟨["m"]⟩, some (["aa", "bb"], [])) ∈ diamond.outline .standard := by simp [outline_diamond]
    obtain ⟨file, hfile, -⟩ := exists_parse_of_mem_outline hmem
    exact ⟨file, hfile⟩
  | tail _ hstep => exact (imports_diamond hstep).2

/-- The diamond holds one signature, in the file to which two ways lead. -/
theorem declares_diamond : TransGen (diamond.Imports .standard) ⟨["m"]⟩ ⟨["ccc"]⟩ ∧
    ∃ s, s.name = "C" ∧ diamond.Declares .standard ⟨["ccc"]⟩ s ∧
      ∀ q s', diamond.Declares .standard q s' → s' = s := by
  constructor
  · have hm : diamond.Imports .standard ⟨["m"]⟩ ⟨["aa"]⟩ := imports_iff_outline.2
      ⟨["aa", "bb"], [], by simp [outline_diamond], "aa", by simp, by decide +kernel⟩
    have ha : diamond.Imports .standard ⟨["aa"]⟩ ⟨["ccc"]⟩ := imports_iff_outline.2
      ⟨["ccc"], [], by simp [outline_diamond], "ccc", by simp, by decide +kernel⟩
    exact .tail (.single hm) ha
  · have hmem : (⟨["ccc"]⟩, some ([], ["C"])) ∈ diamond.outline .standard := by simp [outline_diamond]
    obtain ⟨file, hfile, -, hnames⟩ := exists_parse_of_mem_outline hmem
    obtain ⟨c, hc, hname⟩ := List.map_eq_singleton_iff.1 hnames
    refine ⟨c.signature, hname, ⟨file, hfile, c, by simp [hc], rfl⟩, ?_⟩
    rintro q _ ⟨file', hfile', c', hc', rfl⟩
    have hall : ∀ o ∈ diamond.outline .standard, ∀ x ∈ o.2, x.2 ≠ [] → o.1 = ⟨["ccc"]⟩ := by
      rw [outline_diamond]
      decide
    obtain rfl : q = ⟨["ccc"]⟩ := hall _ (mem_outline hfile') _ rfl (by simpa using List.ne_nil_of_mem hc')
    obtain rfl := Except.ok.inj (hfile'.symm.trans hfile)
    rw [hc, List.mem_singleton] at hc'
    rw [hc']

/-- A ring beside the main file, and a signature that is imported on two ways. -/
theorem import_closure_diamond : (ring.Cyclic .standard ⟨["m"]⟩ ∧ ∃ fault, ring.load ⟨["m"]⟩ = .error fault) ∧
    ¬ diamond.Cyclic .standard ⟨["m"]⟩ ∧
    ∃ d, diamond.load ⟨["m"]⟩ = .ok d ∧ d.imported.map (·.name) = ["C"] := by
  obtain ⟨hfails, -⟩ := import_closure ring .standard ⟨["m"]⟩
  obtain ⟨-, hfaults, hcontent⟩ := import_closure diamond .standard ⟨["m"]⟩
  refine ⟨⟨cyclic_ring, hfails cyclic_ring⟩, not_cyclic_diamond, ?_⟩
  cases hload : diamond.load ⟨["m"]⟩ with
  | error fault =>
    obtain ⟨-, q, hq, hfault⟩ := hfaults not_cyclic_diamond fault hload
    obtain ⟨file, hfile⟩ := exists_parse_diamond hq
    cases hfault.symm.trans hfile
  | ok d =>
    obtain ⟨hnodup, hmem⟩ := hcontent d hload
    obtain ⟨hreach, s, hname, hdeclares, hall⟩ := declares_diamond
    have hperm : d.imported.Perm [s] := by
      refine (List.perm_ext_iff_of_nodup hnodup (List.nodup_singleton s)).2 fun s' => ?_
      rw [hmem, List.mem_singleton]
      constructor
      · rintro ⟨q, -, hq⟩
        exact hall q s' hq
      · rintro rfl
        exact ⟨_, hreach, hdeclares⟩
    refine ⟨d, rfl, ?_⟩
    rw [List.perm_singleton.1 hperm, List.map_singleton, hname]

end Files

end Chronogram

end
