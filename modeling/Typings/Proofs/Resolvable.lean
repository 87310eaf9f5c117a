import Typings.Proofs.Session
import Typings.Proofs.Unambiguous
import Typings.Proofs.Unkept

/-!
# Declarations of listed types

A type that a table lists is declared in a file within reach.  When that file has not been kept, it
is scanned again to find the declaration, and this scan may fail although another one went well.  A
name that is taken from a file whose scan is running is not found before it is registered there,
and a new name may stand for another type than before.
-/

namespace Typings

open ExportScan ScanStep

def Error.Misses (e : Error) (name : String) (q : Path) : Prop :=
  e.root = .unresolvedImport name q ∨ ∃ target, e.root = .unresolvedAlias name q target

variable {files : FileTree} {options : ResolverOptions} {imported : Path → String → Prop}
  {p q : Path} {m : Module} {t : ExportTable}

/-! ## Names that are found -/

theorem Module.misses_of_lookupExport {name : String} {e : Error}
    (h : m.lookupExport t name = .error e) : e.Misses name m.path := by
  unfold Module.lookupExport at h
  split at h
  · cases h
  · split at h
    · obtain rfl := Except.error.inj h
      exact .inl rfl
    · split at h
      · cases h
      · obtain rfl := Except.error.inj h
        exact .inr ⟨_, rfl⟩

/-- A name that a scan misses is taken in a circle and not listed ahead, or not sure to be listed. -/
theorem Missed.exists_take (hproper : files.Proper) {e : Error}
    (h : Missed files options imported p e) : ∃ q b, files.Takes options p q b ∧
      (files.Leads options q p ∧ ¬ Lists files options true q (.of b.name) ∨
        ¬ Lists files options false q (.of b.name)) ∧ e.Misses b.name q := by
  rcases h with ⟨q, b, m, t, htakes, hanswers, hfound⟩
  have hmissed : ¬ t.Has (.of b.name) := by
    intro hhas
    obtain ⟨found, hfound', -⟩ := m.lookupExport_of_has hhas
    rw [hfound] at hfound'
    cases hfound'
  refine ⟨q, b, htakes, ?_, ?_⟩
  · by_cases hback : files.Leads options q p
    · exact .inl ⟨hback, fun hlists => hmissed (hanswers.has hproper hlists fun _ => rfl)⟩
    · exact .inr fun hlists => hmissed (hanswers.has hproper hlists fun hleads => absurd hleads hback)
  · rw [← hanswers.path_eq]
    exact Module.misses_of_lookupExport hfound

/-! ## Declarations -/

theorem exists_declaration {s : Store} (hs : s.Reached files options imported)
    (hm : s.module? p = some m) (hkept : m.exports.isSome) {st : Statement} {hd : Head}
    (hdeclared : .own (.declare st hd) ∈ files.scanSteps options p) :
    ∃ d, m.locals.get? hd.name = some d ∧ d.identity.file = p ∧ d.identity.name = hd.name := by
  obtain ⟨⟨st', hd'⟩, hdecl⟩ := Option.isSome_iff_exists.1 (isSome_declared? hdeclared)
  have hlocals := scanInvariant_localsKept.reached hs p m hm hkept hd.name
  rw [hdecl] at hlocals
  obtain ⟨d, hd₁, hunparsed⟩ := Option.map_eq_some_iff.1 hlocals
  have hidentity : d.identity = hd'.identity p := congrArg Declaration.identity hunparsed
  exact ⟨d, hd₁, by rw [hidentity]; rfl, by rw [hidentity]; exact (mem_of_declared? hdecl).2⟩

theorem eval_declarationOf_ok {a : Identity} {s s₁ s₂ : Store} {d : Declaration}
    (hload : (files.load a.file).eval s = (.ok p, s₁))
    (htable : (files.tableOf p).eval s₁ = (.ok t, s₂)) (hm : s₂.module? p = some m)
    (hd : m.locals.get? a.name = some d) : (files.declarationOf a).eval s = (.ok d, s₂) := by
  have hdeclaration : (files.declaration? p a.name).eval s₁ = (.ok (some d), s₂) := by
    unfold FileTree.declaration?
    rw [Query.eval_bind_ok htable, Query.eval_bind_ok (Query.eval_current_of_some hm),
      Query.eval_pure, hd]
  unfold FileTree.declarationOf
  rw [Query.eval_bind_ok hload, Query.eval_bind_ok hdeclaration]
  exact Query.eval_pure d s₂

theorem eval_declarationOf_error {a : Identity} {s s₁ s₂ : Store} {e : Error}
    (hload : (files.load a.file).eval s = (.ok p, s₁))
    (htable : (files.tableOf p).eval s₁ = (.error e, s₂)) :
    (files.declarationOf a).eval s = (.error e, s₂) := by
  unfold FileTree.declarationOf FileTree.declaration?
  rw [Query.eval_bind_ok hload, Query.eval_bind_error (Query.eval_bind_error htable)]

theorem kept_of_exportsOf {s s' : Store} (hs : s.AtRest files options) {file : Path}
    (heval : (files.exportsOf file).eval s = (.ok t, s')) :
    s'.AtRest files options ∧ ∃ u m, files.key file = .ok u ∧ s'.module? u = some m ∧
      m.exports = some t := by
  unfold FileTree.exportsOf at heval
  rcases hload : (files.load file).eval s with ⟨e | u, s₁⟩
  · rw [Query.eval_bind_error hload] at heval
    cases heval
  · have hs₁ := hs.of_load hload
    rw [Query.eval_bind_ok hload, FileTree.eval_exports hs₁.running] at heval
    obtain ⟨m, hm, ht⟩ := kept_of_answered hs₁.running heval
    exact ⟨hs₁.of_ask (Nat.le_succ files.size) heval, u, m, FileTree.key_of_load hload, hm, ht⟩

/--
The type of an entry of an export table is found again, whatever has been asked since, with the file
and the name that the entry gives.  If it is not, a circle lies on the way from the listing file to
the owner of the type, and a file that the owner leads to is ambiguous: it takes a name that the
other file is not sure to list, or one that it takes in a circle and that the other file does not
list ahead.
-/
theorem declaration_of_listed (hproper : files.Proper) {s₀ s₁ s : Store}
    (hs₀ : s₀.Session files options) {file : Path}
    (hexports : (files.exportsOf file).eval s₀ = (.ok t, s₁)) (hs : s₁.After files s)
    {name : String} {a : Identity} (hentry : t.names.get? name = some a) :
    (∃ d s', (files.declarationOf a).eval s = (.ok d, s') ∧
      d.identity.file = a.file ∧ d.identity.name = a.name) ∨
    ∃ e s', (files.declarationOf a).eval s = (.error e, s') ∧
      ∃ u p q b, files.key file = .ok u ∧ files.LeadsByCircle options u a.file ∧
        files.Leads options a.file p ∧
        ¬ files.Unambiguous options (files.ImportsAs options) p ∧ files.Takes options p q b ∧
        (files.Leads options q p ∧ ¬ Lists files options true q (.of b.name) ∨
          ¬ Lists files options false q (.of b.name)) ∧ e.Misses b.name q := by
  obtain ⟨hs₁, u, m₁, hfile, hkept⟩ := kept_of_exportsOf (hs₀.atRest hproper) hexports
  obtain ⟨hrest, m, hm, ht⟩ := hs.keeps (closed_kept u t) hproper ⟨hs₁, m₁, hkept⟩
  have hsound := (scanInvariant_sound hproper).reached hrest u m hm
  obtain ⟨howner, st, hd, hdeclared, hidentity⟩ := ((hsound.kept t ht).name name a hentry).owner
  -- All files within reach of the kept table have been scanned, the owner among them.
  have hscanned : ∀ p, files.Leads options u p →
      ∃ m, Scanned files options (files.ImportsAs options) p m :=
    fun p hp => carried_scanned.reached hrest u m t hm ht p hp
  obtain ⟨mo, hmo⟩ := hscanned a.file howner
  rcases hmo.exists_text with ⟨text, hread⟩
  have hkey := (howner.isKey hsound.isKey).key_eq hproper hread
  have hloadable : files.Loadable a.file := ⟨a.file, text, hkey, hread⟩
  obtain ⟨s₂, hload, hloaded⟩ := hloadable.eval_load hkey s
  have hs₂ := hrest.of_load hload
  rcases htable : (files.tableOf a.file).eval s₂ with ⟨e | ta, s₃⟩
  · refine .inr ⟨e, s₃, eval_declarationOf_error hload htable, ?_⟩
    have hcircle : files.LeadsByCircle options u a.file := by
      have hlisting : (s.kept? u).isSome := by rw [Store.kept?_of_module? hm, ht]; rfl
      refine (hrest.isSome_kept? hlisting howner).resolve_right fun hkept => ?_
      rw [← (FileTree.loads hload).kept?_eq] at hkept
      obtain ⟨t', heval⟩ : ∃ t, (files.tableOf a.file).eval s₂ = (.ok t, s₂) :=
        eval_tableOf_of_isSome_kept? hkept
      rw [heval] at htable
      cases htable
    obtain ⟨p, hp, hcause⟩ := cause_of_error hproper (.rest hs₂ _) hloaded (by simp)
      htable
    obtain ⟨mp, hmp⟩ := hscanned p (howner.trans hp)
    rcases hcause with hinvalid | ⟨e', hroot, hmissed⟩
    · exact absurd hmp.valid hinvalid
    · obtain ⟨q, b, htakes, hq, hmisses⟩ := hmissed.exists_take hproper
      have hkey' := (howner.trans hp).isKey hsound.isKey
      refine ⟨u, p, q, b, hfile, hcircle, hp,
        fun h => h.not_missed hproper hkey' (.refl p) hmp hmissed, htakes, hq, ?_⟩
      rwa [Error.Misses, hroot]
  · refine .inl ?_
    obtain ⟨ma, hma, hta⟩ := kept_of_answered hs₂.running htable
    have hs₃ := hs₂.of_ask (Nat.le_refl files.size) htable
    obtain ⟨d, hd', hfile, hname⟩ := exists_declaration hs₃ hma (by rw [hta]; rfl) hdeclared
    have heq : hd.name = a.name := congrArg Identity.name hidentity
    rw [heq] at hd' hname
    exact ⟨d, s₃, eval_declarationOf_ok hload htable hma hd', hfile, hname⟩

/-! ## Files in circles -/

/-- The exports of the file list a name, and right afterwards its declaration is not found. -/
def FileTree.Loses (files : FileTree) (s₀ : Store) (file : Path) (name : String) : Prop :=
  ∃ t s₁ a e s₂, (files.exportsOf file).eval s₀ = (.ok t, s₁) ∧ t.names.get? name = some a ∧
    (files.declarationOf a).eval s₁ = (.error e, s₂)

def FileTree.loses (files : FileTree) (s₀ : Store) (file : Path) (name : String) : Bool :=
  match (files.exportsOf file).eval s₀ with
  | (.error _, _) => false
  | (.ok t, s₁) => (t.names.get? name).any fun a =>
      ((files.declarationOf a).eval s₁).1.toOption.isNone

theorem FileTree.loses_iff {files : FileTree} {s₀ : Store} {file : Path} {name : String} :
    files.loses s₀ file name ↔ files.Loses s₀ file name := by
  unfold loses Loses
  rcases (files.exportsOf file).eval s₀ with ⟨e | t, s₁⟩
  · simp
  · simp only [Option.any_eq_true, Prod.mk.injEq, Except.ok.injEq]
    constructor
    · rintro ⟨a, ha, hlost⟩
      rcases hdeclaration : (files.declarationOf a).eval s₁ with ⟨e | d, s₂⟩
      · exact ⟨t, s₁, a, e, s₂, ⟨rfl, rfl⟩, ha, hdeclaration⟩
      · simp [hdeclaration, Except.toOption] at hlost
    · rintro ⟨t', s₁', a, e, s₂, ⟨rfl, rfl⟩, ha, hdeclaration⟩
      exact ⟨a, ha, by simp [hdeclaration, Except.toOption]⟩

/-- Two files take names from each other; a wildcard of the first one leads back to the third. -/
def namedCircle : FileTree := .ofTexts
  [("u.d.ts", "export * from './v.js';\n"),
   ("v.d.ts", "export type P = string;\nexport \x7b Q \x7d from './w.js';\nexport * from './u.js';\n"),
   ("w.d.ts", "export \x7b P \x7d from './v.js';\nexport type Q = number;\n")]

/-- One import after the other gives the name that is taken from the file to another type. -/
def renamedTwice : FileTree := .ofTexts
  [("x.d.ts", "export type A = string;\n"),
   ("z.d.ts", "export * from './h.js';\nexport type B = number;\n"),
   ("h.d.ts", "export \x7b Y \x7d from './t.js';\nexport type H = string;\nexport * from './z.js';\n"),
   ("t.d.ts", "import \x7b A as Y \x7d from './x.js';\nimport \x7b B as Y \x7d from './z.js';\n" ++
     "export \x7b A \x7d from './x.js';\n")]

set_option maxRecDepth 100000 in
theorem listed_types_not_found : namedCircle.Loses (.ofOptions .standard) ⟨"u.d.ts"⟩ "Q" ∧
    ∃ s, s.Session renamedTwice .standard ∧ renamedTwice.Loses s ⟨"z.d.ts"⟩ "H" := by
  refine ⟨FileTree.loses_iff.1 (by decide +kernel), _, .request .here (.imports ⟨"t.d.ts"⟩), ?_⟩
  exact FileTree.loses_iff.1 (by decide +kernel)

set_option maxRecDepth 100000 in
theorem declaration_of_namedCircle : ∃ t s₁ d s',
    (namedCircle.exportsOf ⟨"u.d.ts"⟩).eval (.ofOptions .standard) = (.ok t, s₁) ∧
    t.names.get? "P" = some ⟨⟨"/w/v.d.ts"⟩, "P", false⟩ ∧
    (namedCircle.declarationOf ⟨⟨"/w/v.d.ts"⟩, "P", false⟩).eval s₁ = (.ok d, s') ∧
    d.identity.file = ⟨"/w/v.d.ts"⟩ ∧ d.identity.name = "P" := by
  obtain ⟨hlisted, hfound⟩ : ((namedCircle.exportsOf ⟨"u.d.ts"⟩).eval
      (.ofOptions .standard)).1.toOption.bind (·.names.get? "P") =
        some ⟨⟨"/w/v.d.ts"⟩, "P", false⟩ ∧
      ((namedCircle.declarationOf ⟨⟨"/w/v.d.ts"⟩, "P", false⟩).eval ((namedCircle.exportsOf
        ⟨"u.d.ts"⟩).eval (.ofOptions .standard)).2).1.toOption.isSome = true := by
    decide +kernel
  have hproper : namedCircle.Proper := FileTree.proper_ofTexts _
  rcases hexports : (namedCircle.exportsOf ⟨"u.d.ts"⟩).eval (.ofOptions .standard) with ⟨e | t, s₁⟩
  · simp [hexports, Except.toOption] at hlisted
  · rw [hexports] at hlisted hfound
    rcases declaration_of_listed hproper .here hexports .here hlisted with
      ⟨d, s', heval, hfile, hname⟩ | ⟨e, s', heval, -⟩
    · exact ⟨t, s₁, d, s', rfl, hlisted, heval, hfile, hname⟩
    · simp [heval, Except.toOption] at hfound

end Typings
