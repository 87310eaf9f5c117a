import Typings.Proofs.Failure
import Typings.Proofs.Listed
import Typings.Proofs.Session
import Typings.Proofs.Statements

/-!
# Files behind wildcards

When files take over whole tables only, the exports of a file are those that the files behind its
wildcards declare or list themselves.  It does not matter how the wildcards go in circles, nor what
has been asked before.
-/

namespace Typings

open ExportScan ScanStep

variable {files : FileTree} {options : ResolverOptions} {imported : Path → String → Prop}
  {p q u : Path}

/-! ## What files say -/

/--
A statement that takes no single names from other files.  What it says about the declarations of its
own file agrees with the statements `before` it.
-/
def Statement.Plain (before : List Statement) (s : Statement) : Prop :=
  match s.meaning with
  | .error _ => False
  | .ok (.reexport r) =>
      Specifier.isRelative r.specifier = true → ∀ bindings, r.clause ≠ .named bindings
  | .ok (.declaration _) => True
  | .ok (.defaultExport name) => ∃ h, lastHead? before name = some h ∧ h.exported = false
  | .ok .emptyExport => True
  | .ok (.localExports bindings) => ∀ b ∈ bindings, (lastHead? before b.name).isSome
  | .ok (.value _) => True

namespace FileTree

variable (files options)

def WildcardFor (p file : Path) : Prop :=
  ∃ s ∈ files.exportStatements options p, ∃ r, s.meaning = .ok (.reexport r) ∧ r.clause = .all ∧
    Specifier.isRelative r.specifier = true ∧ file = Specifier.resolve options p r.specifier

def Wildcard (p q : Path) : Prop :=
  ∃ file, files.WildcardFor options p file ∧ files.key file = .ok q

/-- The file at `q` is behind the wildcards of the file at `p`, or is that file. -/
def Behind : Path → Path → Prop := Relation.ReflTransGen (files.Wildcard options)

/-- All files behind the wildcards of the file at `u` can be loaded and are plain. -/
structure PlainFrom (u : Path) : Prop where
  plain : ∀ p, files.Behind options u p → ∀ before s after,
    files.exportStatements options p = before ++ s :: after → s.Plain before
  loadable : ∀ p file, files.Behind options u p → files.WildcardFor options p file →
    files.Loadable file

/-- A declaration of the file, or a list of its declarations, exports the name. -/
def ExportsName (p : Path) (name : String) : Prop :=
  ∃ s ∈ files.exportStatements options p,
    (∃ h, s.meaning = .ok (.declaration h) ∧ h.exported = true ∧ h.name = name) ∨
    (∃ bindings b, s.meaning = .ok (.localExports bindings) ∧ b ∈ bindings ∧ b.name = name)

/-- A statement of the file makes a declaration of the file its default export. -/
def SetsDefault (p : Path) : Prop :=
  ∃ before s after, files.exportStatements options p = before ++ s :: after ∧
    ((∃ h, s.meaning = .ok (.declaration h) ∧ h.exported = true ∧ h.isDefault = true) ∨
    (∃ name, s.meaning = .ok (.defaultExport name)) ∨
    (∃ bindings b h, s.meaning = .ok (.localExports bindings) ∧ b ∈ bindings ∧
      Statement.lastHead? before b.name = some h ∧ h.isDefault = true))

variable {files options}

/-! ## Plain files -/

theorem merges_iff_wildcard : files.Merges options p q ↔ files.Wildcard options p q := by
  constructor
  · intro h
    obtain ⟨s, hs, hgives⟩ := FileTree.mem_scanSteps.1 h
    cases hgives with
    | merge hmeaning hall hrel hkey => exact ⟨_, ⟨s, hs, _, hmeaning, hall, hrel, rfl⟩, hkey⟩
  · rintro ⟨file, ⟨s, hs, r, hmeaning, hall, hrel, rfl⟩, hkey⟩
    exact FileTree.mem_scanSteps.2 ⟨s, hs, .merge hmeaning hall hrel hkey⟩

theorem behind_iff_merges : files.Behind options p q ↔
    Relation.ReflTransGen (files.Merges options) p q := by
  have heq : files.Merges options = files.Wildcard options := by
    funext p q
    exact propext merges_iff_wildcard
  rw [Behind, heq]

namespace PlainFrom

theorem not_takes (h : files.PlainFrom options u) (hp : files.Behind options u p) {b : Binding} :
    ¬ files.Takes options p q b := by
  intro htakes
  obtain ⟨before, after, hsteps⟩ := List.append_of_mem htakes
  obtain ⟨before, s, after, hs, hgives, -⟩ := FileTree.exists_statement hsteps
  have hplain := h.plain p hp before s after hs
  cases hgives with
  | take hmeaning hnamed hrel hb hkey =>
      simp only [Statement.Plain, hmeaning] at hplain
      exact hplain hrel _ hnamed

theorem behind_of_leads (h : files.PlainFrom options u) (hp : files.Leads options u p) :
    files.Behind options u p := by
  induction hp with
  | refl => exact .refl
  | tail _ hasks ih =>
      rcases hasks with hmerges | ⟨b, htakes⟩
      · exact ih.tail (merges_iff_wildcard.1 hmerges)
      · exact absurd htakes (h.not_takes ih)

theorem valid (h : files.PlainFrom options u) (hp : files.Behind options u p) :
    files.Valid options p where
  own done l rest hsteps := by
    obtain ⟨before, s, after, hs, hgives, hdeclared⟩ := FileTree.exists_statement hsteps
    have hplain := h.plain p hp before s after hs
    cases hgives with
    | fail hmeaning => simp [Statement.Plain, hmeaning] at hplain
    | remark => trivial
    | declare => trivial
    | promote hmeaning =>
        simp only [Statement.Plain, hmeaning] at hplain
        rcases hplain with ⟨hd, hlast, hexported⟩
        rw [← hdeclared (by simp [Statement.head?, hmeaning])] at hlast
        obtain ⟨⟨st, hd'⟩, hdecl, rfl⟩ := Option.map_eq_some_iff.1 hlast
        exact ⟨st, hd', hdecl, hexported⟩
    | list hmeaning hb =>
        simp only [Statement.Plain, hmeaning] at hplain
        have hlast := hplain _ hb
        rwa [← hdeclared (by simp [Statement.head?, hmeaning]), Option.isSome_map] at hlast
  visit file hfile := by
    obtain ⟨before, after, hsteps⟩ := List.append_of_mem hfile
    obtain ⟨before, s, after, hs, hgives, -⟩ := FileTree.exists_statement hsteps
    have hplain := h.plain p hp before s after hs
    cases hgives with
    | @visit r hmeaning hrel hclause =>
        simp only [Statement.Plain, hmeaning] at hplain
        refine h.loadable p _ hp ⟨s, by rw [hs]; simp, r, hmeaning, ?_, hrel, rfl⟩
        cases hr : r.clause with
        | all => rfl
        | namespaceName name => exact absurd hr (hclause name)
        | named bindings => exact absurd hr (hplain hrel bindings)

end PlainFrom

end FileTree

/-! ## What plain files provide -/

theorem exportsName_of_providesItself {n : String} {a : Identity}
    (h : ProvidesItself files options p (.name n) a) : files.ExportsName options p n := by
  obtain rfl := h.name_eq
  rcases h with ⟨done, l, rest, hsteps, hl⟩
  obtain ⟨before, s, after, hs, hgives, -⟩ := FileTree.exists_statement hsteps
  refine ⟨s, by rw [hs]; simp, ?_⟩
  cases hgives with
  | fail => cases hl
  | remark => cases hl
  | @declare hd hmeaning =>
      rcases hl with ⟨hexported, rfl, -⟩
      exact .inl ⟨hd, hmeaning, hexported, rfl⟩
  | promote => cases hl.1
  | list hmeaning hb =>
      rcases hl with ⟨st, hd, hdecl, rfl, -⟩
      exact .inr ⟨_, _, hmeaning, hb, (mem_of_declared? hdecl).2.symm⟩

theorem exists_providesItself_name (hvalid : files.Valid options p) {n : String}
    (h : files.ExportsName options p n) : ∃ a, ProvidesItself files options p (.name n) a := by
  rcases h with ⟨s, hs, ⟨hd, hmeaning, hexported, rfl⟩ | ⟨bindings, b, hmeaning, hb, rfl⟩⟩
  · have hi := FileTree.mem_scanSteps.2 ⟨s, hs, .declare hmeaning⟩
    obtain ⟨done, rest, hsteps⟩ := List.append_of_mem hi
    exact ⟨hd.identity p, done, _, rest, hsteps, hexported, rfl, rfl⟩
  · have hi := FileTree.mem_scanSteps.2 ⟨s, hs, .list hmeaning hb⟩
    obtain ⟨done, rest, hsteps⟩ := List.append_of_mem hi
    obtain ⟨⟨st, hd⟩, hdecl⟩ := Option.isSome_iff_exists.1 (hvalid.own done _ rest hsteps)
    exact ⟨hd.identity p, done, _, rest, hsteps, st, hd, hdecl, rfl,
      .inl (mem_of_declared? hdecl).2.symm⟩

theorem setsDefault_of_providesItself {a : Identity}
    (h : ProvidesItself files options p .default a) : files.SetsDefault options p := by
  rcases h with ⟨done, l, rest, hsteps, hl⟩
  obtain ⟨before, s, after, hs, hgives, hdeclared⟩ := FileTree.exists_statement hsteps
  refine ⟨before, s, after, hs, ?_⟩
  cases hgives with
  | fail => cases hl
  | remark => cases hl
  | @declare hd hmeaning =>
      rcases hl with ⟨hexported, rfl, hdefault⟩
      exact .inl ⟨hd, hmeaning, hexported, hdefault⟩
  | promote hmeaning => exact .inr (.inl ⟨_, hmeaning⟩)
  | @list bindings b hmeaning hb =>
      rcases hl with ⟨st, hd, hdecl, rfl, hdefault | ⟨n, heq, -⟩⟩
      · refine .inr (.inr ⟨bindings, b, hd, hmeaning, hb, ?_, hdefault⟩)
        rw [← hdeclared (by simp [Statement.head?, hmeaning]), hdecl]
        rfl
      · cases heq

theorem exists_providesItself_default (hvalid : files.Valid options p)
    (h : files.SetsDefault options p) : ∃ a, ProvidesItself files options p .default a := by
  rcases h with ⟨before, s, after, hs, hsets⟩
  rcases hsets with ⟨hd, hmeaning, hexported, hdefault⟩ | ⟨name, hmeaning⟩ |
    ⟨bindings, b, hd, hmeaning, hb, hlast, hdefault⟩
  · obtain ⟨done, rest, hsteps, -⟩ := FileTree.exists_scanSteps hs (.declare hmeaning)
    exact ⟨hd.identity p, done, _, rest, hsteps, hexported, rfl, hdefault⟩
  · obtain ⟨done, rest, hsteps, -⟩ := FileTree.exists_scanSteps hs (.promote hmeaning)
    obtain ⟨st, hd, hdecl, hexported⟩ := hvalid.own done _ rest hsteps
    exact ⟨hd.identity p, done, _, rest, hsteps, rfl, st, hd, hdecl, hexported, rfl⟩
  · obtain ⟨done, rest, hsteps, hdeclared⟩ :=
      FileTree.exists_scanSteps hs (.list hmeaning hb)
    rw [← hdeclared (by simp [Statement.head?, hmeaning])] at hlast
    obtain ⟨⟨st, hd'⟩, hdecl, rfl⟩ := Option.map_eq_some_iff.1 hlast
    exact ⟨hd'.identity p, done, _, rest, hsteps, st, hd', hdecl, rfl, .inl hdefault⟩

/-- What is provided without taking single names is provided by a file behind the wildcards. -/
theorem Provides.behind_wildcards (hplain : files.PlainFrom options u)
    (hp : files.Behind options u p) {slot : Slot} {a : Identity}
    (h : Provides files options imported p slot a) :
    ∃ r, files.Behind options u r ∧ ProvidesItself files options r slot a := by
  induction h with
  | itself h => exact ⟨_, hp, h⟩
  | merged hover _ ih => exact ih (hp.tail (FileTree.merges_iff_wildcard.1 hover.merges))
  | taken htakes _ _ _ _ => exact absurd htakes (hplain.not_takes hp)

/-! ## The exports -/

theorem exports_of_plain (hproper : files.Proper) (hplain : files.PlainFrom options u) {s : Store}
    (hs : s.Reached files options imported) (hu : (s.module? u).isSome) :
    ∃ t s', (files.exports u).eval s = (.ok t, s') := by
  refine (FileTree.exports_or_cause hproper hs hu).resolve_right ?_
  rintro ⟨e, s', -, p, hleads, hcause⟩
  have hp := hplain.behind_of_leads hleads
  rcases hcause with hinvalid | ⟨e', -, q, b, m, t, htakes, -⟩
  · exact hinvalid (hplain.valid hp)
  · exact hplain.not_takes hp htakes

/--
The exports of a file whose wildcards lead to plain files only are found, whatever has been asked
before.  The names are those that the files behind the wildcards export themselves, and there is a
default export if one of these files sets one.
-/
theorem exports_behind_wildcards (hproper : files.Proper) {file : Path} {text : List Char}
    (hkey : files.key file = .ok u) (hread : files.read u = .ok text)
    (hplain : files.PlainFrom options u) {s : Store} (hs : s.Session files options) :
    ∃ t s', (files.exportsOf file).eval s = (.ok t, s') ∧
      (∀ n, n ∈ t.names.keys ↔
        ∃ p, files.Behind options u p ∧ files.ExportsName options p n) ∧
      (t.defaultExport.isSome ↔ ∃ p, files.Behind options u p ∧ files.SetsDefault options p) := by
  have hloadable : files.Loadable file := ⟨u, text, hkey, hread⟩
  obtain ⟨s₁, hload, hu⟩ := hloadable.eval_load hkey s
  have hs₁ := (hs.atRest hproper).of_load hload
  obtain ⟨t, s', hexports⟩ := exports_of_plain hproper hplain hs₁ hu
  refine ⟨t, s', (Query.eval_bind_ok hload).trans hexports, ?_⟩
  rw [FileTree.eval_exports hs₁.running] at hexports
  have hs' := hs₁.of_ask (Nat.le_succ files.size) hexports
  obtain ⟨m, hm, hkept⟩ := kept_of_answered hs₁.running hexports
  have hprovided := ((scanInvariant_sound hproper).reached hs' u m hm).kept t hkept
  have hlisted : ∀ {p slot a}, files.Behind options u p → ProvidesItself files options p slot a →
      t.Has slot := by
    intro p slot a hp ha
    obtain ⟨mp, hscanned, hgrows⟩ := carried_merged.answer (.rest hs₁ u)
      (by simp) hexports (FileTree.behind_iff_merges.1 hp)
    exact hgrows.has (hscanned.has_itself ha)
  refine ⟨fun n => ?_, ?_⟩
  · rw [← OrderedMap.isSome_get?_iff]
    constructor
    · intro hn
      obtain ⟨a, ha⟩ := Option.isSome_iff_exists.1 hn
      obtain ⟨p, hp, hitself⟩ := (hprovided.name n a ha).behind_wildcards hplain .refl
      exact ⟨p, hp, exportsName_of_providesItself hitself⟩
    · rintro ⟨p, hp, hn⟩
      obtain ⟨a, ha⟩ := exists_providesItself_name (hplain.valid hp) hn
      exact hlisted hp ha
  · constructor
    · intro hdefault
      obtain ⟨a, ha⟩ := Option.isSome_iff_exists.1 hdefault
      obtain ⟨p, hp, hitself⟩ := (hprovided.default a ha).behind_wildcards hplain .refl
      exact ⟨p, hp, setsDefault_of_providesItself hitself⟩
    · rintro ⟨p, hp, hdefault⟩
      obtain ⟨a, ha⟩ := exists_providesItself_default (hplain.valid hp) hdefault
      exact hlisted hp ha

/-! ## Two files in a circle -/

def mutualWildcards : FileTree := .ofTexts
  [("a.d.ts", "export type A = string;\nexport * from './b.js';\n"),
   ("b.d.ts", "export type B = string;\nexport * from './a.js';\n")]

theorem FileTree.PlainFrom.of_closed {files : FileTree} {options : ResolverOptions} {u : Path}
    {ps : List Path} (hu : u ∈ ps)
    (hplain : ∀ p ∈ ps, ∀ before s after,
      files.exportStatements options p = before ++ s :: after → s.Plain before)
    (hwildcards : ∀ p ∈ ps, ∀ file, files.WildcardFor options p file →
      files.Loadable file ∧ ∀ q, files.key file = .ok q → q ∈ ps) : files.PlainFrom options u := by
  have hbehind : ∀ p, files.Behind options u p → p ∈ ps := by
    intro p hp
    induction hp with
    | refl => exact hu
    | tail _ hedge ih =>
        rcases hedge with ⟨file, hfor, hkey⟩
        exact (hwildcards _ ih file hfor).2 _ hkey
  exact ⟨fun p hp => hplain p (hbehind p hp), fun p file hp hfor =>
    (hwildcards p (hbehind p hp) file hfor).1⟩

def mutualPaths : List Path := [⟨"/w/a.d.ts"⟩, ⟨"/w/b.d.ts"⟩]

set_option maxRecDepth 100000 in
theorem meaning_mutualWildcards {p : Path} (hp : p ∈ mutualPaths) {s : Statement}
    (hs : s ∈ mutualWildcards.exportStatements .standard p) :
    (∃ h, s.meaning = .ok (.declaration h)) ∨ ∃ specifier,
      s.meaning = .ok (.reexport ⟨.all, specifier⟩) ∧
        Specifier.resolve .standard p specifier ∈ mutualPaths := by
  have ha : (mutualWildcards.exportStatements .standard ⟨"/w/a.d.ts"⟩).map Statement.meaning =
      [.ok (.declaration ⟨true, false, .typeAlias, "A", " = string;".toList⟩),
        .ok (.reexport ⟨.all, "./b.js"⟩)] := by
    decide +kernel
  have hb : (mutualWildcards.exportStatements .standard ⟨"/w/b.d.ts"⟩).map Statement.meaning =
      [.ok (.declaration ⟨true, false, .typeAlias, "B", " = string;".toList⟩),
        .ok (.reexport ⟨.all, "./a.js"⟩)] := by
    decide +kernel
  have hmem := List.mem_map_of_mem (f := Statement.meaning) hs
  rcases List.mem_pair.1 hp with rfl | rfl
  · rw [ha] at hmem
    rcases List.mem_pair.1 hmem with h | h
    · exact .inl ⟨_, h⟩
    · exact .inr ⟨_, h, by decide +kernel⟩
  · rw [hb] at hmem
    rcases List.mem_pair.1 hmem with h | h
    · exact .inl ⟨_, h⟩
    · exact .inr ⟨_, h, by decide +kernel⟩

theorem plainFrom_mutualWildcards : mutualWildcards.PlainFrom .standard ⟨"/w/a.d.ts"⟩ := by
  have hkey : ∀ file ∈ mutualPaths, mutualWildcards.key file = .ok file ∧
      (mutualWildcards.read file).toOption.isSome := by
    decide +kernel
  refine @FileTree.PlainFrom.of_closed _ _ _ mutualPaths (List.mem_cons_self ..) ?_ ?_
  · intro p hp before s after hsteps
    have hs : s ∈ mutualWildcards.exportStatements .standard p := by
      rw [hsteps]
      simp
    rcases meaning_mutualWildcards hp hs with ⟨h, hmeaning⟩ | ⟨specifier, hmeaning, -⟩
    · simp only [Statement.Plain, hmeaning]
    · simp [Statement.Plain, hmeaning]
  · rintro p hp file ⟨s, hs, r, hmeaning, -, -, htarget⟩
    rw [htarget]
    rcases meaning_mutualWildcards hp hs with ⟨h, hmeaning'⟩ | ⟨specifier, hmeaning', hfile⟩
    · simp [hmeaning] at hmeaning'
    · obtain rfl : r = ⟨.all, specifier⟩ := by simpa [hmeaning] using hmeaning'
      obtain ⟨hself, hread⟩ := hkey _ hfile
      refine ⟨?_, fun q hq => ?_⟩
      · cases htext : mutualWildcards.read (Specifier.resolve .standard p specifier) with
        | error e => simp [htext, Except.toOption] at hread
        | ok text => exact ⟨_, text, hself, htext⟩
      · obtain rfl := Except.ok.inj (hself.symm.trans hq)
        exact hfile

theorem exports_of_mutualWildcards : ∃ t s',
    (mutualWildcards.exportsOf ⟨"a.d.ts"⟩).eval (.ofOptions .standard) = (.ok t, s') ∧
      (∀ n, n ∈ t.names.keys ↔ ∃ p, mutualWildcards.Behind .standard ⟨"/w/a.d.ts"⟩ p ∧
        mutualWildcards.ExportsName .standard p n) ∧
      (t.defaultExport.isSome ↔ ∃ p, mutualWildcards.Behind .standard ⟨"/w/a.d.ts"⟩ p ∧
        mutualWildcards.SetsDefault .standard p) := by
  have hread : mutualWildcards.read ⟨"/w/a.d.ts"⟩ =
      .ok "export type A = string;\nexport * from './b.js';\n".toList := by
    decide +kernel
  exact exports_behind_wildcards (FileTree.proper_ofTexts _) (by decide +kernel) hread
    plainFrom_mutualWildcards .here

end Typings
