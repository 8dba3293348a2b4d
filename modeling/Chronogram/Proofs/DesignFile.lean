import Chronogram.Proofs.Grammar
import Chronogram.Proofs.ImportGraph

/-! Designs that are read. Expressions and times come from texts or are numbers, in declarations that
are written on one line and in those that are given by their fields, in the file itself and in all
that it imports. So the names in everything that is read are identifiers. -/

namespace Chronogram

open Fallible

namespace Checked

variable {α β : Type}

@[simp] theorem pure_eq_fine {a b : α} : (pure a : Checked α) = fine b ↔ a = b := by
  change fine a = fine b ↔ _
  simp

@[simp] theorem seq_eq_fine {f : Checked (α → β)} {x : Checked α} {b : β} :
    f <*> x = fine b ↔ ∃ g a, f = fine g ∧ x = fine a ∧ g a = b := by
  cases f <;> cases x <;> simp [Seq.seq]

@[simp] theorem map_eq_fine {f : α → β} {x : Checked α} {b : β} :
    f <$> x = fine b ↔ ∃ a, x = fine a ∧ f a = b := by
  change (pure f <*> x : Checked β) = fine b ↔ _
  simp

@[simp] theorem seqLeft_eq_fine {x : Checked α} {y : Checked β} {a : α} :
    x <* y = fine a ↔ x = fine a ∧ ∃ b, y = fine b := by
  change (Function.const β <$> x <*> y : Checked α) = fine a ↔ _
  simp only [seq_eq_fine, map_eq_fine]
  constructor
  · rintro ⟨_, b, ⟨a, ha, rfl⟩, hb, rfl⟩
    exact ⟨ha, b, hb⟩
  · rintro ⟨ha, b, hb⟩
    exact ⟨_, b, ⟨a, ha, rfl⟩, hb, rfl⟩

theorem finish_eq_ok {model : Model} {x : Checked α} {a : α} : x.finish model = .ok a ↔ x = fine a := by
  cases x with
  | fine b => simp [finish]
  | flawed issues =>
    rw [finish]
    split <;> simp

theorem inside_eq_fine {part : String} {x : Checked α} {a : α} : x.inside part = fine a ↔ x = fine a := by
  cases x with
  | fine b => simp [inside]
  | flawed issues => simp [inside]

theorem ofExcept_eq_fine {r : Except Fault α} {a : α} : ofExcept r = fine a ↔ r = .ok a := by
  cases r with
  | ok b => simp [ofExcept]
  | error e => simp [ofExcept, refuse]

theorem andThen_eq_fine {x : Checked α} {f : α → Checked β} {b : β} :
    x.andThen f = fine b ↔ ∃ a, x = fine a ∧ f a = fine b := by
  cases x with
  | fine a => simp [andThen]
  | flawed issues => simp [andThen]

end Checked

open Checked

theorem Entries.required_eq_fine {α : Type} {es : Entries} {f : FieldName} {check : Datum → Checked α}
    {a : α} (h : es.required f check = fine a) : ∃ d, check d = fine a := by
  rw [Entries.required, inside_eq_fine] at h
  split at h
  next d _ => exact ⟨d, h⟩
  · cases h

theorem Entries.optional_eq_fine {α : Type} {es : Entries} {f : FieldName} {default : α}
    {check : Datum → Checked α} {a : α} (h : es.optional f default check = fine a) :
    a = default ∨ ∃ d, check d = fine a := by
  rw [Entries.optional] at h
  split at h
  next d _ => exact .inr ⟨d, inside_eq_fine.1 h⟩
  · cases h
    exact .inl rfl

namespace Datum

theorem checkRecord_eq_fine {α : Type} {check : Entries → Checked α} {d : Datum} {a : α}
    (h : d.checkRecord check = fine a) : ∃ es, check es = fine a := by
  unfold checkRecord at h
  split at h
  next es => exact ⟨es, h⟩
  · cases h

theorem checkOption_eq_fine {α : Type} {check : Datum → Checked α} {d : Datum} {o : Option α}
    (h : d.checkOption check = fine o) {a : α} (ha : o = some a) : ∃ d, check d = fine a := by
  unfold checkOption at h
  split at h
  · cases h
    cases ha
  · obtain ⟨b, hb, rfl⟩ := map_eq_fine.1 h
    exact ⟨_, Option.some.inj ha ▸ hb⟩

end Datum

theorem Expr.plain_of_check {d : Datum} {e : Expr} (h : Expr.check d = fine e) : e.Plain := by
  have h := ofExcept_eq_fine.1 h
  unfold Expr.ofDatum at h
  split at h
  · cases h
    exact plain_const _
  · exact Reader.yields_expr.whole h
  · cases h
  · cases h

theorem Parameter.plain_of_check {d : Datum} {p : Parameter} (h : Parameter.check d = fine p) :
    ∀ e, p.default = some e → e.Plain := by
  obtain ⟨es, h⟩ := Datum.checkRecord_eq_fine h
  simp only [seqLeft_eq_fine, seq_eq_fine, map_eq_fine] at h
  obtain ⟨⟨_, description, ⟨_, default, ⟨_, loc, ⟨name, -, rfl⟩, -, rfl⟩, hdefault, rfl⟩, -, rfl⟩, -⟩ := h
  intro e he
  obtain rfl : default = some e := he
  rcases Entries.optional_eq_fine hdefault with hnone | ⟨d, hd⟩
  · cases hnone
  · obtain ⟨d, hd⟩ := Datum.checkOption_eq_fine hd rfl
    exact Expr.plain_of_check hd

theorem Event.plain_of_check {d : Datum} {e : Event} (h : Event.check d = fine e) : e.delay.Plain := by
  obtain ⟨es, h⟩ := Datum.checkRecord_eq_fine h
  simp only [seqLeft_eq_fine, seq_eq_fine, map_eq_fine] at h
  obtain ⟨⟨_, description, ⟨_, delay, ⟨_, loc, ⟨name, -, rfl⟩, -, rfl⟩, hdelay, rfl⟩, -, rfl⟩, -⟩ := h
  obtain ⟨d, hd⟩ := Entries.required_eq_fine hdelay
  exact Expr.plain_of_check hd

namespace Port

theorem checkWidth_eq_ok {width e : Expr} (h : checkWidth width = .ok e) : e = width := by
  unfold checkWidth at h
  split at h
  · split at h
    · cases h
    · cases h
      rfl
  · cases h
    rfl

theorem plain_of_check {d : Datum} {p : Port} (h : Port.check d = fine p) : p.width.Plain := by
  obtain ⟨es, h⟩ := Datum.checkRecord_eq_fine h
  simp only [seqLeft_eq_fine, seq_eq_fine, map_eq_fine] at h
  obtain ⟨⟨_, description, ⟨_, interval, ⟨_, width, ⟨_, direction, ⟨_, loc, ⟨name, -, rfl⟩, -, rfl⟩, -,
    rfl⟩, hwidth, rfl⟩, -, rfl⟩, -, rfl⟩, -⟩ := h
  rcases Entries.optional_eq_fine hwidth with rfl | ⟨d, hd⟩
  · exact Expr.plain_const 1
  · obtain ⟨e, he, hchecked⟩ := andThen_eq_fine.1 hd
    obtain rfl := checkWidth_eq_ok (ofExcept_eq_fine.1 hchecked)
    exact Expr.plain_of_check he

theorem plain_of_parse {s direction : String} {loc : Option Loc} {p : Port}
    (h : Port.parse s direction loc = .ok p) : p.width.Plain := by
  simp only [Port.parse, bind_eq_ok] at h
  obtain ⟨⟨name, interval, width⟩, hread, h⟩ := h
  have hplain := Reader.yields_port.whole hread
  split at h
  next _ _ hwidth =>
    cases h
    exact checkWidth_eq_ok hwidth ▸ hplain
  · cases h

end Port

namespace DesignFile

theorem readText_eq_ok {α : Type} {file : Option String} {parse : String → Option Loc → Except Fault α}
    {d : Datum} {a : α} (h : readText file parse d = .ok a) : ∃ s loc, parse s loc = .ok a :=
  ⟨_, _, mapError_eq_ok.1 h⟩

theorem plain_of_readParameter {file : Option String} {d : Datum} {p : Parameter}
    (h : readParameter file d = .ok p) : ∀ e, p.default = some e → e.Plain := by
  unfold readParameter at h
  split at h
  · simp only [bind_eq_ok, pure_eq_ok, finish_eq_ok] at h
    obtain ⟨q, hq, rfl⟩ := h
    have hplain := Parameter.plain_of_check hq
    exact hplain
  · obtain ⟨s, loc, h⟩ := readText_eq_ok h
    simp only [Parameter.parse, bind_eq_ok, pure_eq_ok] at h
    obtain ⟨q, hq, rfl⟩ := h
    have hplain := Reader.yields_parameter.whole hq
    exact hplain

theorem plain_of_readEvent {file : Option String} {d : Datum} {e : Event}
    (h : readEvent file d = .ok e) : e.delay.Plain := by
  unfold readEvent at h
  split at h
  · simp only [bind_eq_ok, pure_eq_ok, finish_eq_ok] at h
    obtain ⟨q, hq, rfl⟩ := h
    have hplain := Event.plain_of_check hq
    exact hplain
  · obtain ⟨s, loc, h⟩ := readText_eq_ok h
    simp only [Event.parse, bind_eq_ok, pure_eq_ok] at h
    obtain ⟨q, hq, rfl⟩ := h
    have hplain := Reader.yields_event.whole hq
    exact hplain

theorem plain_of_readPort {file : Option String} {direction : Direction} {d : Datum} {p : Port}
    (h : readPort file direction d = .ok p) : p.width.Plain := by
  unfold readPort at h
  split at h
  · simp only [bind_eq_ok, pure_eq_ok, finish_eq_ok] at h
    obtain ⟨q, hq, rfl⟩ := h
    have hplain := Port.plain_of_check hq
    exact hplain
  · obtain ⟨s, loc, h⟩ := readText_eq_ok h
    exact Port.plain_of_parse h

theorem plain_of_readClause {file : Option String} {d : Datum} {c : Clause}
    (h : readClause file d = .ok c) : c.lhs.Plain ∧ c.rhs.Plain := by
  obtain ⟨s, loc, h⟩ := readText_eq_ok h
  simp only [Clause.parse, bind_eq_ok, pure_eq_ok] at h
  obtain ⟨q, hq, rfl⟩ := h
  have hplain := Reader.yields_clause.whole hq
  exact hplain

theorem plain_of_parseStatement {s : String} {loc : Option Loc} {t : Statement}
    (h : Statement.parse s loc = .ok t) : t.Plain := by
  simp only [Statement.parse, bind_eq_ok, pure_eq_ok] at h
  obtain ⟨q, hq, rfl⟩ := h
  have hplain := Reader.yields_statement.whole hq
  cases q with
  | instantiate i => exact hplain
  | invoke i => exact hplain
  | connect c => trivial

theorem plain_of_assemble {name description : String} {params : List Parameter} {events : List Event}
    {ports : List Port} {clauses : List Clause} {external : Bool} {loc : Loc} {s : Signature}
    (hp : ∀ p ∈ params, ∀ e, p.default = some e → e.Plain) (he : ∀ e ∈ events, e.delay.Plain)
    (hw : ∀ p ∈ ports, p.width.Plain) (hc : ∀ c ∈ clauses, c.lhs.Plain ∧ c.rhs.Plain)
    (h : assemble name params events ports clauses external description loc = .ok s) : s.Plain := by
  simp only [assemble, finish_eq_ok, seq_eq_fine, map_eq_fine] at h
  obtain ⟨_, ⟨primary, secondary⟩, ⟨name, -, rfl⟩, htimed, rfl⟩ := h
  split at htimed
  · cases htimed
  · cases htimed
    exact ⟨hp, he, hw, hc⟩

theorem plain_of_readSignature {file : Option String} {es : Entries} {name : Datum} {s : Signature}
    (h : readSignature file es name = .ok s) : s.Plain := by
  simp only [readSignature, bind_eq_ok, mapM_eq_ok] at h
  obtain ⟨_, -, params, hparams, _, -, events, hevents, _, -, inputs, hinputs, _, -, outputs, houtputs,
    _, -, clauses, hclauses, h⟩ := h
  refine plain_of_assemble ?_ ?_ ?_ ?_ h
  · intro p hp
    obtain ⟨d, -, hd⟩ := exists_left_of_forall₂ hparams hp
    exact plain_of_readParameter hd
  · intro e he
    obtain ⟨d, -, hd⟩ := exists_left_of_forall₂ hevents he
    exact plain_of_readEvent hd
  · intro p hp
    rcases List.mem_append.1 hp with hp | hp
    · obtain ⟨d, -, hd⟩ := exists_left_of_forall₂ hinputs hp
      exact plain_of_readPort hd
    · obtain ⟨d, -, hd⟩ := exists_left_of_forall₂ houtputs hp
      exact plain_of_readPort hd
  · intro c hc
    obtain ⟨d, -, hd⟩ := exists_left_of_forall₂ hclauses hc
    exact plain_of_readClause hd

theorem plain_ofStatements {statements : List Statement} (h : ∀ t ∈ statements, t.Plain) :
    (Body.ofStatements statements).Plain := by
  constructor
  · intro i hi
    obtain ⟨t, ht, hti⟩ := List.mem_filterMap.1 hi
    cases t <;> simp at hti
    exact hti ▸ h _ ht
  · intro i hi
    obtain ⟨t, ht, hti⟩ := List.mem_filterMap.1 hi
    cases t <;> simp at hti
    exact hti ▸ h _ ht

theorem plain_of_readBody {file : Option String} {d : Datum} {b : Body} (h : readBody file d = .ok b) :
    b.Plain := by
  unfold readBody at h
  split at h
  · simp only [bind_eq_ok, pure_eq_ok, mapM_eq_ok] at h
    obtain ⟨statements, hs, rfl⟩ := h
    refine plain_ofStatements fun t ht => ?_
    obtain ⟨d, -, hd⟩ := exists_left_of_forall₂ hs ht
    obtain ⟨s, loc, hd⟩ := readText_eq_ok hd
    exact plain_of_parseStatement hd
  · cases h

theorem plain_of_readComponent {file : Option String} {index : Nat} {d : Datum} {c : Component}
    (h : readComponent file index d = .ok c) : c.Plain := by
  unfold readComponent at h
  split at h
  · split at h
    · simp only [bind_eq_ok] at h
      obtain ⟨unknown, -, h⟩ := h
      split at h
      · simp at h
      · simp only [bind_eq_ok, mapError_eq_ok] at h
        obtain ⟨signature, hs, h⟩ := h
        split at h
        · cases h
          exact ⟨plain_of_readSignature hs, by simp⟩
        · split at h
          · simp at h
          · simp only [bind_eq_ok, pure_eq_ok] at h
            obtain ⟨body, hbody, rfl⟩ := h
            exact ⟨plain_of_readSignature hs, fun b hb => Option.some.inj hb ▸ plain_of_readBody hbody⟩
    · cases h
  · cases h

theorem exists_statements_of_readBody {file : Option String} {d : Datum} {b : Body}
    (h : readBody file d = .ok b) :
    ∃ statements, b = .ofStatements statements ∧
      ∀ t ∈ statements, ∃ s loc, Statement.parse s loc = .ok t := by
  unfold readBody at h
  split at h
  · simp only [bind_eq_ok, pure_eq_ok, mapM_eq_ok] at h
    obtain ⟨statements, hs, rfl⟩ := h
    refine ⟨statements, rfl, fun t ht => ?_⟩
    obtain ⟨d, -, hd⟩ := exists_left_of_forall₂ hs ht
    exact readText_eq_ok hd
  · cases h

theorem exists_readBody_of_readComponent {file : Option String} {index : Nat} {d : Datum}
    {c : Component} {b : Body} (h : readComponent file index d = .ok c) (hb : c.body = some b) :
    ∃ d, readBody file d = .ok b := by
  unfold readComponent at h
  split at h
  · split at h
    · simp only [bind_eq_ok] at h
      obtain ⟨unknown, -, h⟩ := h
      split at h
      · simp at h
      · simp only [bind_eq_ok] at h
        obtain ⟨signature, -, h⟩ := h
        split at h
        · cases h
          cases hb
        · split at h
          · simp at h
          · simp only [bind_eq_ok, pure_eq_ok] at h
            obtain ⟨body, hbody, rfl⟩ := h
            exact ⟨_, Option.some.inj hb ▸ hbody⟩
    · cases h
  · cases h

theorem exists_readComponent_of_ofDatum {file : Option String} {d : Datum} {f : DesignFile}
    (h : ofDatum file d = .ok f) {c : Component} (hc : c ∈ f.components) :
    ∃ index d, readComponent file index d = .ok c := by
  unfold ofDatum at h
  split at h
  · simp only [bind_eq_ok] at h
    obtain ⟨unknown, -, h⟩ := h
    split at h
    · simp at h
    · simp only [bind_eq_ok, mapM_eq_ok, pure_eq_ok] at h
      obtain ⟨_, -, components, hcomponents, _, -, rfl⟩ := h
      obtain ⟨d, -, hd⟩ := exists_left_of_forall₂ hcomponents hc
      exact ⟨_, _, hd⟩
  · cases h

theorem plain_of_ofDatum {file : Option String} {d : Datum} {f : DesignFile}
    (h : ofDatum file d = .ok f) : ∀ c ∈ f.components, c.Plain := by
  unfold ofDatum at h
  split at h
  · simp only [bind_eq_ok] at h
    obtain ⟨unknown, -, h⟩ := h
    split at h
    · simp at h
    · simp only [bind_eq_ok, mapM_eq_ok, pure_eq_ok] at h
      obtain ⟨_, -, components, hcomponents, _, -, rfl⟩ := h
      intro c hc
      obtain ⟨d, -, hd⟩ := exists_left_of_forall₂ hcomponents hc
      exact plain_of_readComponent hd
  · cases h

end DesignFile

/-- The names in everything that a design holds are identifiers. -/
structure Design.Plain (d : Design) : Prop where
  components : ∀ c ∈ d.components, c.Plain
  imported : ∀ s ∈ d.imported, s.Plain

/-- The design can be read: it is what some datum says, together with what some files give for the
entries that it imports, whichever way texts and names of files are understood. -/
def Design.Readable (d : Design) : Prop :=
  ∃ (datum : Datum) (source : Option String) (file : DesignFile) (files : Files) (loader : Loader)
    (dir : Path) (imported : List Signature), DesignFile.ofDatum source datum = .ok file ∧
      files.readImports loader [] source dir [] file.imports = .ok imported ∧
      d = Files.assemble file imported source

namespace Files

theorem exists_ofDatum_of_parseFile {loader : Loader} {source : Option String} {text : String}
    {file : DesignFile} (h : parseFile source text loader = .ok file) :
    ∃ datum, DesignFile.ofDatum source datum = .ok file := by
  unfold parseFile at h
  split at h
  · cases h
  next datum _ => exact ⟨datum, h⟩

mutual

theorem plain_of_readDesign {files : Files} {loader : Loader} {reading : List Path} {path : Path}
    {text : String} {d : Design} (h : files.readDesign loader reading path text = .ok d) : d.Plain := by
  rw [readDesign] at h
  simp only [bind_eq_ok, pure_eq_ok] at h
  obtain ⟨file, hfile, imported, himported, rfl⟩ := h
  obtain ⟨datum, hdatum⟩ := exists_ofDatum_of_parseFile hfile
  exact ⟨DesignFile.plain_of_ofDatum hdatum, plain_of_readImports (by simp) himported⟩
termination_by (files.unread reading, 1, 0)

theorem plain_of_readImports {files : Files} {loader : Loader} {reading : List Path}
    {source : Option String} {dir : Path} {known imported : List Signature} {entries : List ImportEntry}
    (hk : ∀ s ∈ known, s.Plain)
    (h : files.readImports loader reading source dir known entries = .ok imported) :
    ∀ s ∈ imported, s.Plain := by
  match entries with
  | [] =>
    rw [readImports] at h
    cases h
    exact hk
  | entry :: rest =>
    rw [readImports] at h
    split at h
    · cases h
    next hr =>
      split at h
      · cases h
      next text ht =>
        simp only [bind_eq_ok] at h
        obtain ⟨d, hd, h⟩ := h
        have : files.unread (loader.resolve dir entry.path :: reading) < files.unread reading :=
          unread_lt ht (by simpa using hr)
        have hplain := plain_of_readDesign hd
        refine plain_of_readImports ?_ h
        intro s hs
        rcases mem_addSignatures.1 hs with hs | hs
        · exact hk s hs
        · rcases List.mem_append.1 hs with hs | hs
          · exact hplain.imported s hs
          · obtain ⟨c, hc, rfl⟩ := List.mem_map.1 hs
            exact (hplain.components c hc).signature
termination_by (files.unread reading, 0, entries.length)
decreasing_by
  · exact Prod.Lex.left _ _ this
  · simp_wf
    exact Prod.Lex.right _ (Prod.Lex.right _ (Nat.lt_succ_self _))

end

/-- What is loaded from files can be read, whatever they import. -/
theorem readable_of_load {files : Files} {loader : Loader} {path : Path} {d : Design}
    (h : files.load path loader = .ok d) : d.Readable := by
  rw [load_eq_read] at h
  simp only [read, parse, bind_eq_ok, pure_eq_ok] at h
  obtain ⟨file, hfile, imported, himported, rfl⟩ := h
  split at hfile
  · cases hfile
  · obtain ⟨datum, hdatum⟩ := exists_ofDatum_of_parseFile hfile
    exact ⟨datum, path.text, file, files, loader, path.parent, imported, hdatum, himported, rfl⟩

end Files

namespace Design

theorem readable_ofText {loader : Loader} {text : String} {d : Design} (h : ofText text loader = .ok d) :
    d.Readable := by
  simp only [ofText, bind_eq_ok, pure_eq_ok] at h
  obtain ⟨file, hfile, imported, himported, rfl⟩ := h
  obtain ⟨datum, hdatum⟩ := Files.exists_ofDatum_of_parseFile hfile
  exact ⟨datum, none, file, ⟨[]⟩, loader, ⟨[]⟩, imported, hdatum, himported, rfl⟩

theorem readable_of_parseFile {loader : Loader} {text : String} {file : DesignFile}
    (h : Files.parseFile none text loader = .ok file) (hi : file.imports = []) :
    (Files.assemble file [] none).Readable := by
  obtain ⟨datum, hdatum⟩ := Files.exists_ofDatum_of_parseFile h
  refine ⟨datum, none, file, ⟨[]⟩, loader, ⟨[]⟩, [], hdatum, ?_, rfl⟩
  rw [hi, Files.readImports]
  rfl

theorem Readable.plain {d : Design} (h : d.Readable) : d.Plain := by
  obtain ⟨datum, source, file, files, loader, dir, imported, hfile, himported, rfl⟩ := h
  exact ⟨DesignFile.plain_of_ofDatum hfile, Files.plain_of_readImports (by simp) himported⟩

/-- The bodies of a design that can be read consist of statements that were written as texts. -/
theorem Readable.exists_statements {d : Design} (h : d.Readable) {c : Component}
    (hc : c ∈ d.components) {b : Body} (hb : c.body = some b) :
    ∃ statements, b = .ofStatements statements ∧
      ∀ t ∈ statements, ∃ s loc, Statement.parse s loc = .ok t := by
  obtain ⟨datum, source, file, files, loader, dir, imported, hfile, -, rfl⟩ := h
  obtain ⟨index, d, hd⟩ := DesignFile.exists_readComponent_of_ofDatum hfile hc
  obtain ⟨d', hd'⟩ := DesignFile.exists_readBody_of_readComponent hd hb
  exact DesignFile.exists_statements_of_readBody hd'

end Design

end Chronogram
