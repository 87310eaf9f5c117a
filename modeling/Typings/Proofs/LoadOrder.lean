import Typings.Proofs.Session
import Typings.Proofs.Unambiguous

/-!
# The order of queries

Whether the exports of a file are found, and what they are, may depend on the files that were asked
before.  It does not if names that are taken in circles are listed ahead and if no file on a circle
provides two types in one place.
-/

namespace Typings

open ExportScan ScanStep

variable {files : FileTree} {options : ResolverOptions} {imported : Path → String → Prop}
  {p q r u : Path}

/-! ## Queries for exports -/

/-- The stores that queries for the exports of files lead to. -/
inductive Store.AfterExports (files : FileTree) (options : ResolverOptions) : Store → Prop
  | fresh : AfterExports files options (.ofOptions options)
  | exports {s : Store} (h : AfterExports files options s) (file : Path) :
      AfterExports files options ((files.exportsOf file).eval s).2

theorem Store.AfterExports.reached {s : Store} (h : s.AfterExports files options) :
    s.Reached files options (fun _ _ => False) := by
  induction h with
  | fresh => exact .fresh
  | @exports s _ file ih =>
      unfold FileTree.exportsOf
      rcases hload : (files.load file).eval s with ⟨e | key, s₁⟩
      · rw [Query.eval_bind_error hload]
        exact ih.of_load hload
      · have hs₁ := ih.of_load hload
        rw [Query.eval_bind_ok hload, FileTree.eval_exports hs₁.running]
        exact hs₁.ask (Nat.le_succ _) key

/-- Both queries fail, or both find tables with the same types in the same places. -/
def SameExports : Except Error ExportTable → Except Error ExportTable → Prop
  | .error _, .error _ => True
  | .ok t, .ok t' => t.Agrees t'
  | _, _ => False

theorem sameExports_of_loaded (hproper : files.Proper) (h : files.Unambiguous options imported u)
    (hkey : files.IsKey u) {s s' : Store} (hs : s.Reached files options imported)
    (hs' : s'.Reached files options imported) (hu : (s.module? u).isSome)
    (hu' : (s'.module? u).isSome) :
    SameExports ((files.exports u).eval s).1 ((files.exports u).eval s').1 := by
  have hfound : ∀ {s t s₁}, s.Reached files options imported →
      (files.exports u).eval s = (.ok t, s₁) →
      (∃ m, Settled files options imported u m t) ∧ ∀ p, files.Leads options u p →
        ∃ m, Scanned files options imported p m := by
    intro s t s₁ hs heval
    rw [FileTree.eval_exports hs.running] at heval
    obtain ⟨m, -, hsettled⟩ := settled_of_answer (.rest hs u) (by simp) heval
    exact ⟨⟨m, hsettled⟩, fun p hp =>
      carried_scanned.answer (.rest hs u) (by simp) heval hp⟩
  rcases FileTree.exports_or_cause hproper hs hu with ⟨t, s₁, heval⟩ | ⟨e, s₁, heval, hcause⟩
  · obtain ⟨⟨m, hm⟩, hscanned⟩ := hfound hs heval
    rcases FileTree.exports_or_cause hproper hs' hu' with ⟨t', s₁', heval'⟩ | ⟨e, -, -, hcause⟩
    · obtain ⟨⟨m', hm'⟩, -⟩ := hfound hs' heval'
      rw [heval, heval']
      exact (h.agreed hproper hkey (.refl u) m t m' t' hm hm').1
    · exact absurd hcause (h.not_cause hproper hkey hscanned)
  · rcases FileTree.exports_or_cause hproper hs' hu' with ⟨t', s₁', heval'⟩ | ⟨e', s₁', heval', -⟩
    · obtain ⟨-, hscanned⟩ := hfound hs' heval'
      exact absurd hcause (h.not_cause hproper hkey hscanned)
    · rw [heval, heval']
      trivial

/--
The exports of a file do not depend on the files whose exports have been asked before, as long as
names that are taken in circles are listed ahead and no file on a circle provides two types in one
place.  Queries for exports leave the names of imports alone.
-/
theorem exports_in_any_order (hproper : files.Proper) {file : Path}
    (hfile : ∀ u, files.key file = .ok u → files.Unambiguous options (fun _ _ => False) u) {s s' : Store}
    (hs : s.AfterExports files options) (hs' : s'.AfterExports files options) :
    SameExports ((files.exportsOf file).eval s).1 ((files.exportsOf file).eval s').1 := by
  by_cases hloadable : files.Loadable file
  · obtain ⟨u, text, hkey, -⟩ := id hloadable
    obtain ⟨s₁, hload, hu⟩ := hloadable.eval_load hkey s
    obtain ⟨s₁', hload', hu'⟩ := hloadable.eval_load hkey s'
    have hsame := sameExports_of_loaded hproper (hfile u hkey) ⟨file, hkey⟩
      (hs.reached.of_load hload) (hs'.reached.of_load hload') hu hu'
    unfold FileTree.exportsOf
    rwa [Query.eval_bind_ok hload, Query.eval_bind_ok hload']
  · have hfails : ∀ {s : Store}, s.AfterExports files options →
        ∃ e, ((files.exportsOf file).eval s).1 = .error e := by
      intro s hs
      rcases hload : (files.load file).eval s with ⟨e | u, s₁⟩
      · refine ⟨e, ?_⟩
        unfold FileTree.exportsOf
        rw [Query.eval_bind_error hload]
      · exact absurd ((FileTree.loads hload).loadable hs.reached.running) hloadable
    obtain ⟨e, he⟩ := hfails hs
    obtain ⟨e', he'⟩ := hfails hs'
    rw [he, he']
    trivial

/-! ## A name that is listed ahead -/

/-- Of two files on a circle, one takes a name that the other has from a third; both have defaults. -/
def takenAhead : FileTree := .ofTexts
  [("a.d.ts", "export * from './c.js';\nexport default interface D \x7b \x7d\n" ++
     "export * from './b.js';\n"),
   ("b.d.ts", "export default interface E \x7b \x7d\nexport \x7b C \x7d from './a.js';\n"),
   ("c.d.ts", "export type C = string;\n")]

namespace takenAhead

def paths : List Path := [⟨"/w/a.d.ts"⟩, ⟨"/w/b.d.ts"⟩, ⟨"/w/c.d.ts"⟩]

def types : List Identity :=
  [⟨⟨"/w/a.d.ts"⟩, "D", true⟩, ⟨⟨"/w/b.d.ts"⟩, "E", true⟩, ⟨⟨"/w/c.d.ts"⟩, "C", false⟩]

set_option maxRecDepth 100000 in
theorem scanSteps_a : takenAhead.scanSteps .standard ⟨"/w/a.d.ts"⟩ =
    [.visit ⟨"/w/c.d.ts"⟩, .merge ⟨"/w/c.d.ts"⟩,
      .own (.declare ⟨"export default interface D \x7b \x7d".toList, 24⟩
        ⟨true, true, .interface, "D", " \x7b \x7d".toList⟩),
      .visit ⟨"/w/b.d.ts"⟩, .merge ⟨"/w/b.d.ts"⟩] := by
  decide +kernel

set_option maxRecDepth 100000 in
theorem scanSteps_b : takenAhead.scanSteps .standard ⟨"/w/b.d.ts"⟩ =
    [.own (.declare ⟨"export default interface E \x7b \x7d".toList, 0⟩
        ⟨true, true, .interface, "E", " \x7b \x7d".toList⟩),
      .visit ⟨"/w/a.d.ts"⟩, .take ⟨"/w/a.d.ts"⟩ ⟨"C", none⟩] := by
  decide +kernel

set_option maxRecDepth 100000 in
theorem scanSteps_c : takenAhead.scanSteps .standard ⟨"/w/c.d.ts"⟩ =
    [.own (.declare ⟨"export type C = string;".toList, 0⟩
      ⟨true, false, .typeAlias, "C", " = string;".toList⟩)] := by
  decide +kernel

theorem mem_paths (h : takenAhead.Leads .standard ⟨"/w/a.d.ts"⟩ p) : p ∈ paths := by
  refine h.mem_of_closed (List.mem_cons_self ..) fun p hp i hi q hq => ?_
  simp only [paths, List.mem_cons, List.not_mem_nil, or_false] at hp ⊢
  rcases hp with rfl | rfl | rfl
  · rw [scanSteps_a] at hi
    simp only [List.mem_cons, List.not_mem_nil, or_false] at hi
    rcases hi with rfl | rfl | rfl | rfl | rfl <;> cases hq <;> simp
  · rw [scanSteps_b] at hi
    simp only [List.mem_cons, List.not_mem_nil, or_false] at hi
    rcases hi with rfl | rfl | rfl <;> cases hq
    simp
  · rw [scanSteps_c, List.mem_singleton] at hi
    subst hi
    cases hq

theorem not_asks_c : ¬ takenAhead.Asks .standard ⟨"/w/c.d.ts"⟩ p := by
  simp [FileTree.Asks, FileTree.Merges, FileTree.Takes, scanSteps_c]

theorem type_of_provides {slot : Slot} {a : Identity} (hp : takenAhead.Leads .standard ⟨"/w/a.d.ts"⟩ p)
    (h : Provides takenAhead .standard imported p slot a) : a ∈ types := by
  obtain ⟨howner, st, hd, hdeclared, hidentity⟩ := h.owner
  have hfile := mem_paths (hp.trans howner)
  rw [← hidentity]
  generalize a.file = file at hdeclared hfile ⊢
  simp only [paths, List.mem_cons, List.not_mem_nil, or_false] at hfile
  rcases hfile with rfl | rfl | rfl
  · simp only [scanSteps_a, List.mem_cons, List.not_mem_nil, or_false, reduceCtorEq, false_or,
      ScanStep.own.injEq, LocalStep.declare.injEq] at hdeclared
    rw [hdeclared.2]
    decide
  · simp only [scanSteps_b, List.mem_cons, List.not_mem_nil, or_false, reduceCtorEq,
      ScanStep.own.injEq, LocalStep.declare.injEq] at hdeclared
    rw [hdeclared.2]
    decide
  · simp only [scanSteps_c, List.mem_cons, List.not_mem_nil, or_false,
      ScanStep.own.injEq, LocalStep.declare.injEq] at hdeclared
    rw [hdeclared.2]
    decide

theorem providesOne_name (hp : takenAhead.Leads .standard ⟨"/w/a.d.ts"⟩ p) (n : String) :
    ProvidesOne takenAhead .standard imported p (.name n) := by
  have hnames : ∀ a ∈ types, ∀ c ∈ types, a.name = c.name → a = c := by decide
  intro a c ha hc
  exact hnames a (type_of_provides hp ha) c (type_of_provides hp hc)
    (ha.name_eq.symm.trans hc.name_eq)

theorem lists_c : Lists takenAhead .standard false ⟨"/w/c.d.ts"⟩ (.name "C") := by
  have hfirst : ∃ rest, takenAhead.scanSteps .standard ⟨"/w/c.d.ts"⟩ = [] ++ _ :: rest :=
    ⟨[], scanSteps_c⟩
  exact .itself ⟨hfirst, by simp⟩ ⟨rfl, rfl, rfl⟩

theorem lists_a : Lists takenAhead .standard true ⟨"/w/a.d.ts"⟩ (.name "C") := by
  have hsecond : ∃ rest, takenAhead.scanSteps .standard ⟨"/w/a.d.ts"⟩ = [_] ++ _ :: rest :=
    ⟨_, scanSteps_a⟩
  refine .merged ⟨hsecond, fun _ i hi q hq hback => ?_⟩ lists_c
  obtain rfl : q = ⟨"/w/c.d.ts"⟩ := by
    simp only [List.nil_append, List.mem_cons, List.not_mem_nil, or_false, List.cons_append] at hi
    rcases hi with rfl | rfl <;> cases hq
    rfl
  rcases Relation.ReflTransGen.cases_head hback with heq | ⟨r, hr, -⟩
  · simp at heq
  · exact not_asks_c hr

theorem unambiguous : takenAhead.Unambiguous .standard (fun _ _ => False) ⟨"/w/a.d.ts"⟩ := by
  constructor
  · intro p q b hp htakes _
    obtain ⟨rfl, rfl⟩ : q = ⟨"/w/a.d.ts"⟩ ∧ b = ⟨"C", none⟩ := by
      have hmem := mem_paths hp
      simp only [paths, List.mem_cons, List.not_mem_nil, or_false] at hmem
      rcases hmem with rfl | rfl | rfl
      · simp [FileTree.Takes, scanSteps_a] at htakes
      · simpa [FileTree.Takes, scanSteps_b] using htakes
      · simp [FileTree.Takes, scanSteps_c] at htakes
    exact ⟨lists_a, providesOne_name (.refl _) "C"⟩
  · intro p hp hcircle slot hslot hdefault
    cases slot with
    | name n => exact providesOne_name hp n
    | renamed n => exact absurd rfl (hslot n)
    | default =>
        refine absurd ?_ (hdefault rfl)
        have hmem := mem_paths hp
        simp only [paths, List.mem_cons, List.not_mem_nil, or_false] at hmem
        rcases hmem with rfl | rfl | rfl
        · rw [scanSteps_a]
          exact ⟨[_, _], _, _, rfl, _, rfl, rfl, rfl⟩
        · rw [scanSteps_b]
          exact ⟨[], _, _, rfl, _, rfl, rfl, rfl⟩
        · obtain ⟨q, hq, -⟩ := hcircle
          exact absurd hq not_asks_c
  · exact fun _ _ _ _ _ => not_false

end takenAhead

set_option maxRecDepth 100000 in
theorem exports_of_takenAhead : SameExports
    ((takenAhead.exportsOf ⟨"a.d.ts"⟩).eval (.ofOptions .standard)).1
    ((takenAhead.exportsOf ⟨"a.d.ts"⟩).eval
      ((takenAhead.exportsOf ⟨"b.d.ts"⟩).eval (.ofOptions .standard)).2).1 := by
  have hkey : takenAhead.key ⟨"a.d.ts"⟩ = .ok ⟨"/w/a.d.ts"⟩ := by decide +kernel
  refine exports_in_any_order (FileTree.proper_ofTexts _) (fun u hu => ?_) .fresh (.exports .fresh _)
  obtain rfl := Except.ok.inj (hkey.symm.trans hu)
  exact takenAhead.unambiguous

/-! ## Where the order matters -/

/-- Two files behind each other's wildcards declare the same name. -/
def sharedName : FileTree := .ofTexts
  [("a.d.ts", "export type X = string;\nexport * from './b.js';\n"),
   ("b.d.ts", "export type X = number;\nexport * from './a.js';\n")]

/-- Two files take a name from each other, and the second one does so first of all. -/
def takenEarly : FileTree := .ofTexts
  [("a.d.ts", "export type A = string;\nexport \x7b B \x7d from './b.js';\n"),
   ("b.d.ts", "export \x7b A \x7d from './a.js';\nexport type B = string;\n")]

theorem SameExports.get?_eq {r r' : Except Error ExportTable} (h : SameExports r r') (n : String) :
    r.toOption.bind (·.names.get? n) = r'.toOption.bind (·.names.get? n) := by
  cases r with
  | error e =>
      cases r' with
      | error e' => rfl
      | ok t' => cases h
  | ok t =>
      cases r' with
      | error e' => cases h
      | ok t' => exact h.names n

set_option maxRecDepth 100000 in
/-- The exports of a file are others, or are found only, when those of another file are asked first. -/
theorem exports_depend_on_order :
    ¬ SameExports ((sharedName.exportsOf ⟨"a.d.ts"⟩).eval (.ofOptions .standard)).1
      ((sharedName.exportsOf ⟨"a.d.ts"⟩).eval
        ((sharedName.exportsOf ⟨"b.d.ts"⟩).eval (.ofOptions .standard)).2).1 ∧
    ¬ SameExports ((takenEarly.exportsOf ⟨"b.d.ts"⟩).eval (.ofOptions .standard)).1
      ((takenEarly.exportsOf ⟨"b.d.ts"⟩).eval
        ((takenEarly.exportsOf ⟨"a.d.ts"⟩).eval (.ofOptions .standard)).2).1 := by
  constructor
  · intro h
    have hne : ((sharedName.exportsOf ⟨"a.d.ts"⟩).eval
        (.ofOptions .standard)).1.toOption.bind (·.names.get? "X") ≠
        ((sharedName.exportsOf ⟨"a.d.ts"⟩).eval
          ((sharedName.exportsOf ⟨"b.d.ts"⟩).eval
            (.ofOptions .standard)).2).1.toOption.bind (·.names.get? "X") := by
      decide +kernel
    exact hne (h.get?_eq "X")
  · intro h
    have hne : ((takenEarly.exportsOf ⟨"b.d.ts"⟩).eval
        (.ofOptions .standard)).1.toOption.bind (·.names.get? "B") ≠
        ((takenEarly.exportsOf ⟨"b.d.ts"⟩).eval
          ((takenEarly.exportsOf ⟨"a.d.ts"⟩).eval
            (.ofOptions .standard)).2).1.toOption.bind (·.names.get? "B") := by
      decide +kernel
    exact hne (h.get?_eq "B")

end Typings
