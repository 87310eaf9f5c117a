import Mathlib.Data.List.Induction
import Typings.Proofs.Locals
import Typings.Proofs.Reexports

/-!
# Statements and their steps

Which steps a statement stands for, and what the statements before it declare.
-/

namespace Typings

open ScanStep

variable {files : FileTree} {options : ResolverOptions} {p : Path}

/-- The step is one that the statement stands for in the file at `p`. -/
inductive Statement.Gives (files : FileTree) (options : ResolverOptions) (p : Path)
    (s : Statement) : ScanStep → Prop
  | fail {e : Error} (h : s.meaning = .error e) : Gives files options p s (.own (.fail e))
  | remark {m : Meaning} {r : Remark} (h : s.meaning = .ok m) (hr : m.remark? s.text = some r) :
      Gives files options p s (.own (.remark s r))
  | declare {hd : Head} (h : s.meaning = .ok (.declaration hd)) :
      Gives files options p s (.own (.declare s hd))
  | promote {name : String} (h : s.meaning = .ok (.defaultExport name)) :
      Gives files options p s (.own (.promote s name))
  | list {bindings : List Binding} {b : Binding} (h : s.meaning = .ok (.localExports bindings))
      (hb : b ∈ bindings) : Gives files options p s (.own (.list b))
  | visit {r : Reexport} (h : s.meaning = .ok (.reexport r))
      (hrel : Specifier.isRelative r.specifier = true)
      (hclause : ∀ name, r.clause ≠ .namespaceName name) :
      Gives files options p s (.visit (Specifier.resolve options p r.specifier))
  | merge {r : Reexport} {q : Path} (h : s.meaning = .ok (.reexport r)) (hclause : r.clause = .all)
      (hrel : Specifier.isRelative r.specifier = true)
      (hkey : files.key (Specifier.resolve options p r.specifier) = .ok q) :
      Gives files options p s (.merge q)
  | take {r : Reexport} {bindings : List Binding} {b : Binding} {q : Path}
      (h : s.meaning = .ok (.reexport r)) (hclause : r.clause = .named bindings)
      (hrel : Specifier.isRelative r.specifier = true) (hb : b ∈ bindings)
      (hkey : files.key (Specifier.resolve options p r.specifier) = .ok q) :
      Gives files options p s (.take q b)

theorem ScanStep.mem_visiting {file : Path} {steps : Path → List ScanStep} {i : ScanStep} :
    i ∈ visiting files file steps ↔
      i = .visit file ∨ ∃ q, files.key file = .ok q ∧ i ∈ steps q := by
  rw [visiting, List.mem_cons]
  cases files.key file <;> simp

theorem Reexport.mem_scanSteps {r : Reexport} {i : ScanStep} :
    i ∈ r.scanSteps files options p ↔
      ((∀ name, r.clause ≠ .namespaceName name) ∧
        i = .visit (Specifier.resolve options p r.specifier)) ∨
      ∃ q, files.key (Specifier.resolve options p r.specifier) = .ok q ∧
        ((r.clause = .all ∧ i = .merge q) ∨
          ∃ bindings b, r.clause = .named bindings ∧ b ∈ bindings ∧ i = .take q b) := by
  rcases r with ⟨clause, specifier⟩
  unfold scanSteps
  cases clause with
  | all => simp [ScanStep.mem_visiting]
  | namespaceName name => simp
  | named bindings => simp [ScanStep.mem_visiting, eq_comm]

theorem Meaning.remark?_relative {r : Reexport} (hrel : Specifier.isRelative r.specifier = true)
    (hclause : ∀ name, r.clause ≠ .namespaceName name) (text : List Char) :
    (Meaning.reexport r).remark? text = none := by
  rcases r with ⟨clause, specifier⟩
  cases clause with
  | all => simp [remark?, hrel]
  | namespaceName name => exact absurd rfl (hclause name)
  | named bindings => simp [remark?, hrel]

theorem Meaning.relative_of_remark? {r : Reexport} {text : List Char}
    (h : (Meaning.reexport r).remark? text = none) :
    Specifier.isRelative r.specifier = true ∧ ∀ name, r.clause ≠ .namespaceName name := by
  rcases r with ⟨clause, specifier⟩
  simp only [remark?] at h
  split at h
  · cases h
  · next hrel =>
      refine ⟨by simpa using hrel, fun name heq => ?_⟩
      simp only at heq
      subst heq
      cases h

theorem Statement.mem_scanSteps {s : Statement} {i : ScanStep} :
    i ∈ s.scanSteps files options p ↔ s.Gives files options p i := by
  constructor
  · intro hi
    unfold Statement.scanSteps Meaning.scanSteps at hi
    split at hi
    · next hmeaning =>
        obtain rfl := List.mem_singleton.1 hi
        exact .fail hmeaning
    · next m hmeaning =>
        split at hi
        · next hremark =>
            obtain rfl := List.mem_singleton.1 hi
            exact .remark hmeaning hremark
        · next hremark =>
            split at hi
            · next r =>
                obtain ⟨hrel, hclause⟩ := Meaning.relative_of_remark? hremark
                rcases Reexport.mem_scanSteps.1 hi with
                  ⟨-, rfl⟩ | ⟨q, hkey, ⟨hall, rfl⟩ | ⟨bindings, b, hnamed, hb, rfl⟩⟩
                · exact .visit (r := r) hmeaning hrel hclause
                · exact .merge (r := r) hmeaning hall hrel hkey
                · exact .take (r := r) hmeaning hnamed hrel hb hkey
            · obtain rfl := List.mem_singleton.1 hi
              exact .declare hmeaning
            · obtain rfl := List.mem_singleton.1 hi
              exact .promote hmeaning
            · cases hi
            · obtain ⟨b, hb, rfl⟩ := List.mem_map.1 hi
              exact .list hmeaning hb
            · cases hi
  · intro h
    unfold Statement.scanSteps Meaning.scanSteps
    cases h with
    | fail h => simp [h]
    | remark h hr => simp [h, hr]
    | declare h => simp [h, Meaning.remark?]
    | promote h => simp [h, Meaning.remark?]
    | list h hb => simpa [h, Meaning.remark?] using hb
    | visit h hrel hclause =>
        simp only [h, Meaning.remark?_relative hrel hclause]
        exact Reexport.mem_scanSteps.2 (.inl ⟨hclause, rfl⟩)
    | merge h hall hrel hkey =>
        simp only [h, Meaning.remark?_relative hrel (by simp [hall])]
        exact Reexport.mem_scanSteps.2 (.inr ⟨_, hkey, .inl ⟨hall, rfl⟩⟩)
    | take h hnamed hrel hb hkey =>
        simp only [h, Meaning.remark?_relative hrel (by simp [hnamed])]
        exact Reexport.mem_scanSteps.2 (.inr ⟨_, hkey, .inr ⟨_, _, hnamed, hb, rfl⟩⟩)

theorem FileTree.mem_scanSteps {i : ScanStep} : i ∈ files.scanSteps options p ↔
    ∃ s ∈ files.exportStatements options p, s.Gives files options p i := by
  simp only [scanSteps, List.mem_flatMap, Statement.mem_scanSteps]

/-! ## What is declared before a statement -/

def Statement.head? (s : Statement) : Option Head :=
  match s.meaning with
  | .ok (.declaration h) => some h
  | _ => none

def Statement.lastHead? (ss : List Statement) (name : String) : Option Head :=
  ss.reverse.findSome? fun s => s.head?.filter (·.name = name)

namespace ScanStep

theorem declared?_concat (steps steps' : List ScanStep) (name : String) :
    declared? (steps ++ steps') name = (declared? steps' name).or (declared? steps name) := by
  rw [declared?, List.reverse_append, List.findSome?_append, declared?, declared?]

theorem declared?_eq_none {steps : List ScanStep}
    (h : ∀ s hd, .own (.declare s hd) ∉ steps) (name : String) : declared? steps name = none := by
  rw [Option.eq_none_iff_forall_not_mem]
  rintro ⟨s, hd⟩ hdeclared
  exact h s hd (mem_of_declared? hdeclared).1

end ScanStep

theorem Statement.declared?_scanSteps (s : Statement) (name : String) :
    (declared? (s.scanSteps files options p) name).map Prod.snd =
      s.head?.filter (·.name = name) := by
  cases hhead : s.head? with
  | none =>
      rw [declared?_eq_none fun st hd hmem => ?_]
      · rfl
      · cases Statement.mem_scanSteps.1 hmem with
        | declare h => simp [head?, h] at hhead
  | some hd =>
      have hmeaning : s.meaning = .ok (.declaration hd) := by
        unfold head? at hhead
        split at hhead
        · next heq =>
            obtain rfl := Option.some.inj hhead
            exact heq
        · cases hhead
      simp only [scanSteps, Meaning.scanSteps, hmeaning, Meaning.remark?, declared?,
        List.reverse_singleton, List.findSome?_singleton, declares?, Option.filter_some,
        decide_eq_true_eq]
      split <;> rfl

theorem Statement.declared?_flatMap (ss : List Statement) (name : String) :
    (declared? (ss.flatMap (·.scanSteps files options p)) name).map Prod.snd =
      Statement.lastHead? ss name := by
  induction ss using List.reverseRecOn with
  | nil => rfl
  | append_singleton ss s ih =>
      rw [List.flatMap_append, List.flatMap_singleton, declared?_concat, Option.map_or,
        declared?_scanSteps, ih]
      simp only [lastHead?, List.reverse_append, List.reverse_singleton, List.singleton_append,
        List.findSome?_cons]
      cases Option.filter _ s.head? <;> rfl

/-! ## The statement of a step -/

theorem exists_of_flatMap_eq {α β : Type} {f : α → List β} {as : List α} {done rest : List β}
    {i : β} (h : as.flatMap f = done ++ i :: rest) : ∃ before a after d r,
      as = before ++ a :: after ∧ f a = d ++ i :: r ∧ done = before.flatMap f ++ d := by
  induction as generalizing done with
  | nil => simp at h
  | cons a as ih =>
      rw [List.flatMap_cons] at h
      have hlater : ∀ {done'}, as.flatMap f = done' ++ i :: rest → done = f a ++ done' →
          ∃ before a' after d r, a :: as = before ++ a' :: after ∧ f a' = d ++ i :: r ∧
            done = before.flatMap f ++ d := by
        intro done' hrest hdone
        obtain ⟨before, a', after, d, r, rfl, ha', rfl⟩ := ih hrest
        exact ⟨a :: before, a', after, d, r, rfl, ha', by rw [hdone, List.flatMap_cons, List.append_assoc]⟩
      rcases List.append_eq_append_iff.1 h with ⟨done', hdone, hrest⟩ | ⟨here, ha, hrest⟩
      · exact hlater hrest hdone
      · cases here with
        | nil =>
            rw [List.append_nil] at ha
            exact @hlater [] hrest.symm (by rw [ha, List.append_nil])
        | cons j here =>
            obtain ⟨rfl, -⟩ := List.cons.inj hrest
            exact ⟨[], a, as, done, here, rfl, ha, rfl⟩

theorem Statement.declared?_before {s : Statement} (hhead : s.head? = none) {d r : List ScanStep}
    (hs : s.scanSteps files options p = d ++ r) (before : List Statement) (name : String) :
    (declared? (before.flatMap (·.scanSteps files options p) ++ d) name).map Prod.snd =
      Statement.lastHead? before name := by
  have hnone : declared? d name = none := by
    refine declared?_eq_none (fun st hd hmem => ?_) name
    have hmem' : .own (.declare st hd) ∈ s.scanSteps files options p := by
      rw [hs]
      exact List.mem_append_left _ hmem
    cases Statement.mem_scanSteps.1 hmem' with
    | declare h => simp [Statement.head?, h] at hhead
  rw [declared?_concat, hnone, Option.none_or, Statement.declared?_flatMap]

theorem FileTree.exists_statement {done rest : List ScanStep} {i : ScanStep}
    (h : files.scanSteps options p = done ++ i :: rest) : ∃ before s after,
      files.exportStatements options p = before ++ s :: after ∧ s.Gives files options p i ∧
        (s.head? = none → ∀ name,
          (declared? done name).map Prod.snd = Statement.lastHead? before name) := by
  obtain ⟨before, s, after, d, r, heq, hs, rfl⟩ := exists_of_flatMap_eq h
  refine ⟨before, s, after, heq, Statement.mem_scanSteps.1 (by rw [hs]; simp), fun hhead => ?_⟩
  exact Statement.declared?_before hhead hs before

theorem FileTree.exists_scanSteps {before after : List Statement} {s : Statement}
    (h : files.exportStatements options p = before ++ s :: after) {i : ScanStep}
    (hi : s.Gives files options p i) : ∃ done rest,
      files.scanSteps options p = done ++ i :: rest ∧
        (s.head? = none → ∀ name,
          (declared? done name).map Prod.snd = Statement.lastHead? before name) := by
  obtain ⟨d, r, hs⟩ := List.append_of_mem (Statement.mem_scanSteps.2 hi)
  refine ⟨before.flatMap (·.scanSteps files options p) ++ d,
    r ++ after.flatMap (·.scanSteps files options p), ?_, fun hhead => ?_⟩
  · simp only [scanSteps, h, List.flatMap_append, List.flatMap_cons, hs, List.append_assoc,
      List.cons_append]
  · exact Statement.declared?_before hhead hs before

end Typings
