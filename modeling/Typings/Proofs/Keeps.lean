import Typings.Proofs.Query
import Typings.Store.Resolve

/-!
# Queries that do alike

Two queries that are put together in the same way from parts that do alike do alike, and what
every part keeps, the query keeps, whether it fails or not.  Resolving a term asks the store for
names only.
-/

namespace Typings

namespace Query

variable {α β : Type} {I : Store → Prop}

def Keeps (I : Store → Prop) (q : Query α) : Prop := ∀ s, I s → I (q.eval s).2

/-- In the stores with `I` the queries have the same outcome, and they keep `I`. -/
def Alike (I : Store → Prop) (q q' : Query α) : Prop :=
  ∀ s, I s → q.eval s = q'.eval s ∧ I (q'.eval s).2

theorem Keeps.alike {q : Query α} (h : q.Keeps I) : q.Alike I q := fun s hs => ⟨rfl, h s hs⟩

theorem Alike.keeps {q q' : Query α} (h : q.Alike I q') : q'.Keeps I := fun s hs => (h s hs).2

/-! ## Single steps -/

theorem keeps_pure (a : α) : (pure a : Query α).Keeps I := by
  intro s h
  rwa [eval_pure]

theorem keeps_throw (e : Error) : (throw e : Query α).Keeps I := by
  intro s h
  rwa [eval_throw]

theorem keeps_ofExcept (x : Except Error α) : (ofExcept x).Keeps I := by
  intro s h
  rw [eval_ofExcept]
  exact h

theorem keeps_current (p : Path) : (Query.current p).Keeps I := by
  intro s h
  rw [eval_current]
  split <;> exact h

/-! ## Combinations -/

theorem Alike.bind_of {q q' : Query α} (hq : q.Alike I q') {f f' : α → Query β}
    (hf : ∀ a s s', I s → q'.eval s = (.ok a, s') → I s' →
      (f a).eval s' = (f' a).eval s' ∧ I ((f' a).eval s').2) :
    (q >>= f).Alike I (q' >>= f') := by
  intro s h
  obtain ⟨heq, hs'⟩ := hq s h
  rcases heval : q'.eval s with ⟨e | a, s'⟩
  · rw [eval_bind_error heval, eval_bind_error (heq.trans heval)]
    rw [heval] at hs'
    exact ⟨rfl, hs'⟩
  · rw [eval_bind_ok heval, eval_bind_ok (heq.trans heval)]
    rw [heval] at hs'
    exact hf a s s' h heval hs'

theorem Alike.bind {q q' : Query α} (hq : q.Alike I q') {f f' : α → Query β}
    (hf : ∀ a, (f a).Alike I (f' a)) : (q >>= f).Alike I (q' >>= f') :=
  hq.bind_of fun a _ s' _ _ h => hf a s' h

theorem Keeps.bind {q : Query α} (hq : q.Keeps I) {f : α → Query β} (hf : ∀ a, (f a).Keeps I) :
    (q >>= f).Keeps I :=
  (hq.alike.bind fun a => (hf a).alike).keeps

theorem Alike.observe {q q' : Query α} (hq : q.Alike I q') :
    (observe q).Alike I (observe q') := by
  intro s h
  obtain ⟨heq, hs'⟩ := hq s h
  rw [eval_observe, eval_observe, heq]
  exact ⟨rfl, hs'⟩

theorem alike_foldlM {as : List α} {f f' : β → α → Query β}
    (hf : ∀ a ∈ as, ∀ b, (f b a).Alike I (f' b a)) (b : β) :
    (as.foldlM f b).Alike I (as.foldlM f' b) := by
  induction as generalizing b with
  | nil => exact (keeps_pure b).alike
  | cons a as ih =>
      rw [List.foldlM_cons, List.foldlM_cons]
      refine (hf a (List.mem_cons_self ..) b).bind fun b => ?_
      exact ih (fun a ha => hf a (List.mem_cons_of_mem _ ha)) b

end Query

/-! ## Resolving terms -/

section Resolve

variable {I : Store → Prop} {scope scope' : Scope Store}

open Query

mutual

theorem Term.alike_resolve (hforms : scope.forms = scope'.forms)
    (h : ∀ name, Query.Alike I (scope.lookup name) (scope'.lookup name)) :
    ∀ t : Term, Query.Alike I (t.resolve scope) (t.resolve scope')
  | .invalid cause => by
      rw [Term.resolve, Term.resolve]
      exact (keeps_throw cause).alike
  | .literal value => by
      rw [Term.resolve, Term.resolve]
      exact (keeps_pure _).alike
  | .primitive kind => by
      rw [Term.resolve, Term.resolve]
      exact (keeps_pure _).alike
  | .array element => by
      rw [Term.resolve, Term.resolve]
      exact (Term.alike_resolve hforms h element).bind fun _ => (keeps_pure _).alike
  | .object body => by
      rw [Term.resolve, Term.resolve]
      exact (Body.alike_resolve hforms h body [] none).bind fun _ => (keeps_pure _).alike
  | .compound joiner members => by
      rw [Term.resolve, Term.resolve]
      exact (Term.alike_resolveAll hforms h members).bind fun _ => (keeps_pure _).alike
  | .named name none => by
      rw [Term.resolve, Term.resolve]
      refine (h name).bind fun found => ?_
      split <;> exact (keeps_pure _).alike
  | .named name (some [argument]) => by
      rw [Term.resolve, Term.resolve, hforms]
      refine (h name).bind fun found => ?_
      split
      · exact (Term.alike_resolve hforms h argument).bind fun _ => (keeps_pure _).alike
      · split
        · exact (Term.alike_resolve hforms h argument).bind fun _ => (keeps_pure _).alike
        · exact (Term.alike_resolve hforms h argument).bind fun _ => (keeps_pure _).alike
        · exact (keeps_pure _).alike
  | .named name (some [_, value]) => by
      rw [Term.resolve, Term.resolve, hforms]
      refine (h name).bind fun found => ?_
      split
      · exact (keeps_pure _).alike
      · split
        · exact (Term.alike_resolve hforms h value).bind fun _ => (keeps_pure _).alike
        · exact (keeps_pure _).alike
  | .named name (some []) => by
      rw [Term.resolve, Term.resolve]
      any_goals simp
      refine (h name).bind fun found => ?_
      split <;> exact (keeps_pure _).alike
  | .named name (some (_ :: _ :: _ :: _)) => by
      rw [Term.resolve, Term.resolve]
      any_goals simp
      refine (h name).bind fun found => ?_
      split <;> exact (keeps_pure _).alike
  | .generic => by
      rw [Term.resolve, Term.resolve]
      exact (keeps_pure _).alike
  | .unknown => by
      rw [Term.resolve, Term.resolve]
      exact (keeps_pure _).alike

theorem Term.alike_resolveAll (hforms : scope.forms = scope'.forms)
    (h : ∀ name, Query.Alike I (scope.lookup name) (scope'.lookup name)) :
    ∀ ts : List Term, Query.Alike I (Term.resolveAll scope ts) (Term.resolveAll scope' ts)
  | [] => by
      rw [Term.resolveAll, Term.resolveAll]
      exact (keeps_pure _).alike
  | t :: ts => by
      rw [Term.resolveAll, Term.resolveAll]
      exact (Term.alike_resolve hforms h t).bind fun _ =>
        (Term.alike_resolveAll hforms h ts).bind fun _ => (keeps_pure _).alike

theorem Body.alike_resolve (hforms : scope.forms = scope'.forms)
    (h : ∀ name, Query.Alike I (scope.lookup name) (scope'.lookup name)) :
    ∀ (b : Body) (properties : List (Property Expr)) (dynamic : Option Expr),
      Query.Alike I (b.resolve scope properties dynamic) (b.resolve scope' properties dynamic)
  | .closed, _, _ => by
      rw [Body.resolve, Body.resolve]
      exact (keeps_pure _).alike
  | .broken cause, _, _ => by
      rw [Body.resolve, Body.resolve]
      exact (keeps_throw cause).alike
  | .property key optional value rest, _, _ => by
      rw [Body.resolve, Body.resolve]
      exact (Term.alike_resolve hforms h value).bind fun _ => Body.alike_resolve hforms h rest _ _
  | .dynamic value rest, _, _ => by
      rw [Body.resolve, Body.resolve]
      exact (Term.alike_resolve hforms h value).bind fun _ => Body.alike_resolve hforms h rest _ _

end

theorem Declaration.Written.alike_resolve (hforms : scope.forms = scope'.forms)
    (h : ∀ name, Query.Alike I (scope.lookup name) (scope'.lookup name))
    (w : Declaration.Written) : Query.Alike I (w.resolve scope) (w.resolve scope') := by
  refine (Term.alike_resolve hforms h w.body).bind fun body => ?_
  split
  · exact (keeps_pure _).alike
  · exact (Term.alike_resolveAll hforms h w.bases).bind fun _ => (keeps_pure _).alike

end Resolve

end Typings
