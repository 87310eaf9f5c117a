import Typings.Proofs.Acyclic
import Typings.Proofs.Session

/-!
# Exports after the imports

Import scans and export scans note new names in one place, and the import scan of a file asks other
files for their tables.  What the file exports is the same afterwards, except for the names that its
imports introduce.  A file that has not been kept and that leads to circles needs to be unambiguous
for this.
-/

namespace Typings

open ExportScan

variable {files : FileTree} {options : ResolverOptions} {imported : Path → String → Prop}
  {s s' : Store} {u : Path} {name : String}

/-- The imports of a file are asked for, whether they are found or not, and then an export. -/
def FileTree.exportAfterImports (files : FileTree) (u : Path) (name : String) : Query Identity := do
  let _ ← Query.observe (files.imports u)
  files.exportNamed u name

theorem FileTree.eval_exportAfterImports (s : Store) :
    (files.exportAfterImports u name).eval s =
      (files.exportNamed u name).eval ((files.imports u).eval s).2 :=
  Query.eval_bind_ok (Query.eval_observe _ s)

/-! ## Exports in two stores -/

/-- Where nothing is ambiguous, an export is the same in all stores between queries. -/
theorem FileTree.Unambiguous.exportNamed_eq (hproper : files.Proper)
    (h : files.Unambiguous options imported u) (hs : s.Reached files options imported)
    (hs' : s'.Reached files options imported) (hu : (s.module? u).isSome)
    (hu' : (s'.module? u).isSome) (hname : imported u name → ∀ t s₁,
      (files.tableOf u).eval s = (.ok t, s₁) → (t.get? name).isSome) :
    ((files.exportNamed u name).eval s).1 = ((files.exportNamed u name).eval s').1 := by
  obtain ⟨m₀, hm₀⟩ := Option.isSome_iff_exists.1 hu
  have hkey := (hs.running.isFile u m₀ hm₀).isKey
  have halike : (files.tableOf u).FailsAlike s s' := h.failsAlike hproper hkey (.refl u)
    (.rest hs u) (.rest hs' u) hu hu' (by simp)
  unfold FileTree.exportNamed
  rcases heval : (files.tableOf u).eval s with ⟨e | t, s₁⟩
  · obtain ⟨s₁', heval'⟩ := halike.of_error heval
    rw [exportedBy, Query.eval_bind_error heval, Query.eval_bind_error heval']
  · obtain ⟨t', s₁', heval'⟩ := halike.of_ok heval
    obtain ⟨m, hm, hsettled⟩ := settled_of_answer (.rest hs u) (by simp) heval
    obtain ⟨m', hm', hsettled'⟩ := settled_of_answer (.rest hs' u) (by simp) heval'
    obtain ⟨hagrees, hlookup⟩ := h.agreed hproper hkey (.refl u) m t m' t' hsettled hsettled'
    rw [ScanStep.eval_exportedBy heval hm, ScanStep.eval_exportedBy heval' hm']
    by_cases himported : imported u name
    · obtain ⟨a, ha⟩ := Option.isSome_iff_exists.1 (hname himported t s₁ heval)
      rw [m.lookupExport_of_get? ha, m'.lookupExport_of_get? (hagrees.get? name ▸ ha)]
    · exact hlookup name himported

/-- Where there are no circles, an export is the same after the imports, asked for before or not. -/
theorem FileTree.NoCircles.exportNamed_after_imports (hproper : files.Proper)
    (hcircle : files.NoCircles options u) (hs : s.AtRest files options) (hu : (s.module? u).isSome)
    (hname : files.ImportsAs options u name → ∀ t s₁,
      (files.tableOf u).eval s = (.ok t, s₁) → (t.get? name).isSome) :
    ((files.exportNamed u name).eval ((files.imports u).eval s).2).1 =
        ((files.exportNamed u name).eval s).1 ∧
      ((files.exportNamed u name).eval
          ((files.imports u).eval ((files.exportNamed u name).eval s).2).2).1 =
        ((files.exportNamed u name).eval s).1 := by
  obtain ⟨m, hm⟩ := Option.isSome_iff_exists.1 hu
  have hkey := (hs.running.isFile u m hm).isKey
  have hbase : ∀ p m, s.module? p = some m → m.path = p := fun p m hm =>
    (hs.running.isFile p m hm).path_eq
  have hkept := Store.keptByImports_inKeeping hproper hkey hcircle hbase
  have hbegun : s.AtRestWith files options fun s' =>
      s'.InKeeping files options (files.ImportsAs options) u s :=
    ⟨hs, Store.inKeeping_self hproper hkey hcircle⟩
  have hafter := hkept.keeps_imports (p := u) hproper rfl _ hbegun
  have haround := hkept.keeps_imports (p := u) hproper rfl _
    (hkept.keeps_exportNamed u name _ hbegun)
  exact ⟨hafter.2.exportNamed_eq hproper hkey hcircle hbase hafter.1 hs hu hname,
    haround.2.exportNamed_eq hproper hkey hcircle hbase haround.1 hs hu hname⟩

/-! ## Before and after the imports -/

/--
A call for the imports of a file, whether it succeeds or fails, does not change what the file
exports under a name, provided that its imports do not introduce the name or that its table lists it.
This is so for a file that has been kept, that leads to no circle or that is unambiguous.  When the
export is asked for both before and after the imports, it is enough that the table of the file was
found.
-/
theorem exportNamed_around_imports (hproper : files.Proper) (hs : s.AtRest files options)
    (hu : (s.module? u).isSome) (hname : files.ImportsAs options u name → ∀ t s₁,
      (files.exports u).eval s = (.ok t, s₁) → (t.get? name).isSome) :
    ((∃ m, s.module? u = some m ∧ m.exports.isSome) ∨ files.NoCircles options u ∨
        files.Unambiguous options (files.ImportsAs options) u →
      ((files.exportAfterImports u name).eval s).1 = ((files.exportNamed u name).eval s).1) ∧
    ((∃ t s₁, (files.exports u).eval s = (.ok t, s₁)) ∨ files.NoCircles options u ∨
        files.Unambiguous options (files.ImportsAs options) u →
      ((files.exportAfterImports u name).eval ((files.exportNamed u name).eval s).2).1 =
        ((files.exportNamed u name).eval s).1) := by
  simp only [files.eval_exports_eq hproper hs.running] at hname ⊢
  have hunambiguous : ∀ {s'}, s.Later files options s' →
      files.Unambiguous options (files.ImportsAs options) u →
      ((files.exportNamed u name).eval s').1 = ((files.exportNamed u name).eval s).1 :=
    fun hlater h => (h.exportNamed_eq hproper hs (hlater.keeps closed_atRest hs) hu
      (hlater.grows.isSome_module? u hu) hname).symm
  have hacyclic : files.NoCircles options u → _ ∧ _ := fun hcircle =>
    hcircle.exportNamed_after_imports hproper hs hu hname
  constructor
  · rw [files.eval_exportAfterImports]
    have hlater : s.Later files options ((files.imports u).eval s).2 := hs.later_imports hproper
    rintro (⟨m, hm, hkept⟩ | hcircle | h)
    · obtain ⟨t, ht⟩ := Option.isSome_iff_exists.1 hkept
      have heval := hlater.eval_exportNamed hs hm ht fun himported =>
        hname himported t s (eval_tableOf_of_kept hm ht)
      rw [heval, files.eval_exportNamed_of_kept hm ht]
    · exact (hacyclic hcircle).1
    · exact hunambiguous hlater h
  · rw [files.eval_exportAfterImports]
    have hlater : s.Later files options ((files.exportNamed u name).eval s).2 :=
      s.later_exportNamed u name
    have hs₁ := hlater.keeps closed_atRest hs
    rintro (⟨t, s₁, heval⟩ | hcircle | h)
    · obtain ⟨m, hm, ht⟩ := kept_of_answered hs.running heval
      have hexport : (files.exportNamed u name).eval s = (m.lookupExport t name, s₁) :=
        ScanStep.eval_exportedBy heval hm
      rw [hexport] at hs₁ ⊢
      rw [(hs₁.later_imports hproper).eval_exportNamed hs₁ hm ht fun himported =>
        hname himported t s₁ heval]
    · exact (hacyclic hcircle).2
    · refine hunambiguous ?_ h
      exact (hs₁.later_imports hproper).keeps (closed_later hs) hlater

/--
The imports of one file fail behind the first new name that they introduce.  The file takes a name
that the imports of another file introduce.
-/
def failingImport : FileTree := .ofTexts
  [("u.d.ts", "import \x7b W as B \x7d from './v.js';\nimport \x7b Z \x7d from './v.js';\n" ++
     "export \x7b X \x7d from './v.js';\n"),
   ("v.d.ts", "import \x7b W as X \x7d from './w.js';\nexport \x7b W \x7d from './w.js';\n"),
   ("w.d.ts", "export type W = string;\n")]

namespace failingImport

set_option maxRecDepth 100000 in
theorem scanSteps_u : failingImport.scanSteps .standard ⟨"/w/u.d.ts"⟩ =
    [.visit ⟨"/w/v.d.ts"⟩, .take ⟨"/w/v.d.ts"⟩ ⟨"X", none⟩] := by
  decide +kernel

set_option maxRecDepth 100000 in
theorem scanSteps_v : failingImport.scanSteps .standard ⟨"/w/v.d.ts"⟩ =
    [.visit ⟨"/w/w.d.ts"⟩, .take ⟨"/w/w.d.ts"⟩ ⟨"W", none⟩] := by
  decide +kernel

set_option maxRecDepth 100000 in
theorem scanSteps_w : failingImport.scanSteps .standard ⟨"/w/w.d.ts"⟩ =
    [.own (.declare ⟨"export type W = string;".toList, 0⟩
      ⟨true, false, .typeAlias, "W", " = string;".toList⟩)] := by
  decide +kernel

theorem asks_u {q : Path} (h : failingImport.Asks .standard ⟨"/w/u.d.ts"⟩ q) :
    q = ⟨"/w/v.d.ts"⟩ := by
  simpa [FileTree.Asks, FileTree.Merges, FileTree.Takes, scanSteps_u] using h

theorem asks_v {q : Path} (h : failingImport.Asks .standard ⟨"/w/v.d.ts"⟩ q) :
    q = ⟨"/w/w.d.ts"⟩ := by
  simpa [FileTree.Asks, FileTree.Merges, FileTree.Takes, scanSteps_v] using h

theorem not_asks_w {q : Path} : ¬ failingImport.Asks .standard ⟨"/w/w.d.ts"⟩ q := by
  simp [FileTree.Asks, FileTree.Merges, FileTree.Takes, scanSteps_w]

theorem leads_w {q : Path} (h : failingImport.Leads .standard ⟨"/w/w.d.ts"⟩ q) :
    q = ⟨"/w/w.d.ts"⟩ := by
  rcases Relation.ReflTransGen.cases_head h with rfl | ⟨r, hr, -⟩
  · rfl
  · exact absurd hr not_asks_w

theorem leads_v {q : Path} (h : failingImport.Leads .standard ⟨"/w/v.d.ts"⟩ q) :
    q = ⟨"/w/v.d.ts"⟩ ∨ q = ⟨"/w/w.d.ts"⟩ := by
  rcases Relation.ReflTransGen.cases_head h with rfl | ⟨r, hr, hrest⟩
  · exact .inl rfl
  · obtain rfl := asks_v hr
    exact .inr (leads_w hrest)

theorem noCircles : failingImport.NoCircles .standard ⟨"/w/u.d.ts"⟩ := by
  rintro p hp ⟨q, hq, hback⟩
  rcases Relation.ReflTransGen.cases_head hp with rfl | ⟨r, hr, hrest⟩
  · obtain rfl := asks_u hq
    rcases leads_v hback with heq | heq <;> simp at heq
  · obtain rfl := asks_u hr
    rcases leads_v hrest with rfl | rfl
    · obtain rfl := asks_v hq
      have heq := leads_w hback
      simp at heq
    · exact not_asks_w hq

end failingImport

set_option maxRecDepth 100000 in
theorem exportNamed_around_failingImport : ∃ s e, s.AtRest failingImport .standard ∧
    failingImport.ImportsAs .standard ⟨"/w/v.d.ts"⟩ "X" ∧
    ((failingImport.exportNamed ⟨"/w/u.d.ts"⟩ "W").eval s).1 = .ok ⟨⟨"/w/w.d.ts"⟩, "W", false⟩ ∧
    ((failingImport.imports ⟨"/w/u.d.ts"⟩).eval s).1 = .error e ∧
    ((failingImport.exportAfterImports ⟨"/w/u.d.ts"⟩ "W").eval s).1 =
      ((failingImport.exportNamed ⟨"/w/u.d.ts"⟩ "W").eval s).1 ∧
    ((failingImport.exportAfterImports ⟨"/w/u.d.ts"⟩ "W").eval
        ((failingImport.exportNamed ⟨"/w/u.d.ts"⟩ "W").eval s).2).1 =
      ((failingImport.exportNamed ⟨"/w/u.d.ts"⟩ "W").eval s).1 := by
  have hproper : failingImport.Proper := FileTree.proper_ofTexts _
  have hname : ¬ failingImport.ImportsAs .standard ⟨"/w/u.d.ts"⟩ "W" := by decide +kernel
  have hsession : Store.Session failingImport .standard _ :=
    .request (.request .here (.load ⟨"u.d.ts"⟩)) (.imports ⟨"v.d.ts"⟩)
  have hs := hsession.atRest hproper
  obtain ⟨hafter, haround⟩ := exportNamed_around_imports (u := ⟨"/w/u.d.ts"⟩) hproper hs
    (by decide +kernel) fun himported => absurd himported hname
  exact ⟨_, .inFile ⟨"/w/u.d.ts"⟩ (.unresolvedImport "Z" ⟨"/w/v.d.ts"⟩), hs, by decide +kernel,
    by decide +kernel, by decide +kernel, hafter (.inr (.inl failingImport.noCircles)),
    haround (.inr (.inl failingImport.noCircles))⟩

/-! ## Where imports matter -/

/-- A type is exported, and it is imported under a new name that is not exported. -/
def importedRenamed : FileTree := .ofTexts
  [("u.d.ts", "import \x7b A as B \x7d from './v.js';\nexport \x7b A \x7d from './v.js';\n"),
   ("v.d.ts", "export type A = string;\n")]

/-- Two files take names from each other, and one of them imports what it takes. -/
def importedInCircle : FileTree := .ofTexts
  [("a.d.ts", "export type A = string;\nexport \x7b B \x7d from './b.js';\n"),
   ("b.d.ts", "import \x7b A \x7d from './a.js';\nexport \x7b A \x7d from './a.js';\n" ++
     "export type B = string;\n")]

def FileTree.ImportsChange (files : FileTree) (u : Path) (name : String) : Prop :=
  ∃ s, s.Session files .standard ∧ (s.module? u).isSome ∧
    ((files.exportAfterImports u name).eval s).1 ≠ ((files.exportNamed u name).eval s).1 ∧
    ((files.exportAfterImports u name).eval ((files.exportNamed u name).eval s).2).1 ≠
      ((files.exportNamed u name).eval s).1

set_option maxRecDepth 100000 in
/--
A name that imports introduce is exported afterwards, though it was not before.  In a circle, a file
that fails is in order when its imports have been asked for.
-/
theorem exports_changed_by_imports : importedRenamed.ImportsChange ⟨"/w/u.d.ts"⟩ "B" ∧
    importedInCircle.ImportsChange ⟨"/w/b.d.ts"⟩ "A" :=
  ⟨⟨_, .request .here (.load ⟨"u.d.ts"⟩), by decide +kernel⟩,
    ⟨_, .request .here (.load ⟨"b.d.ts"⟩), by decide +kernel⟩⟩

end Typings
