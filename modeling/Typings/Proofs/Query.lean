import Typings.Proofs.Action
import Typings.Store.Exports

/-!
# Evaluating queries

`Query.eval` runs a query in a store.  The equations below replace the monad: a proof about a
query is a proof about the store that it leaves.
-/

namespace Typings.Query

variable {α β : Type}

def eval (q : Query α) (s : Store) : Except Error α × Store := (ExceptT.run q).run s

@[simp] theorem eval_pure (a : α) (s : Store) : (pure a : Query α).eval s = (.ok a, s) := rfl

@[simp] theorem eval_throw (e : Error) (s : Store) :
    (throw e : Query α).eval s = (.error e, s) := rfl

theorem eval_bind_ok {q : Query α} {f : α → Query β} {s s' : Store} {a : α}
    (h : q.eval s = (.ok a, s')) : (q >>= f).eval s = (f a).eval s' :=
  Action.eval_bind_ok h

theorem eval_bind_error {q : Query α} {f : α → Query β} {s s' : Store} {e : Error}
    (h : q.eval s = (.error e, s')) : (q >>= f).eval s = (.error e, s') :=
  Action.eval_bind_error h

theorem eval_bind (q : Query α) (f : α → Query β) (s : Store) :
    (q >>= f).eval s =
      match q.eval s with
      | (.ok a, s') => (f a).eval s'
      | (.error e, s') => (.error e, s') := by
  rcases h : q.eval s with ⟨e | a, s'⟩
  · exact eval_bind_error h
  · exact eval_bind_ok h

theorem eval_bind_eq_ok {q : Query α} {f : α → Query β} {s s' : Store} {b : β}
    (h : (q >>= f).eval s = (.ok b, s')) :
    ∃ a s₁, q.eval s = (.ok a, s₁) ∧ (f a).eval s₁ = (.ok b, s') := by
  rcases hq : q.eval s with ⟨e | a, s₁⟩
  · simp [eval_bind_error hq] at h
  · exact ⟨a, s₁, rfl, (eval_bind_ok hq).symm.trans h⟩

@[simp] theorem eval_get (s : Store) : (get : Query Store).eval s = (.ok s, s) := rfl

@[simp] theorem eval_modify (f : Store → Store) (s : Store) :
    (modify f : Query Unit).eval s = (.ok (), f s) := rfl

@[simp] theorem eval_update (p : Path) (f : Module → Module) (s : Store) :
    (Query.update p f).eval s = (.ok (), s.updateModule p f) := rfl

theorem eval_ofExcept (x : Except Error α) (s : Store) : (Query.ofExcept x).eval s = (x, s) := by
  cases x <;> rfl

theorem eval_bind_ofExcept_ok {x : Except Error α} {f : α → Query β} {s s' : Store} {b : β}
    (h : (Query.ofExcept x >>= f).eval s = (.ok b, s')) :
    ∃ a, x = .ok a ∧ (f a).eval s = (.ok b, s') := by
  cases x with
  | error e => simp [eval_bind_error (eval_ofExcept (.error e) s)] at h
  | ok a => exact ⟨a, rfl, (eval_bind_ok (eval_ofExcept (.ok a) s)).symm.trans h⟩

theorem eval_current (p : Path) (s : Store) :
    (Query.current p).eval s =
      match s.module? p with
      | some m => (.ok m, s)
      | none => (.error (.fileNotFound p), s) := by
  rw [Query.current, eval_bind_ok (eval_get s)]
  cases s.module? p <;> rfl

theorem eval_current_of_some {p : Path} {s : Store} {m : Module} (h : s.module? p = some m) :
    (Query.current p).eval s = (.ok m, s) := by
  rw [eval_current, h]

theorem eval_current_of_none {p : Path} {s : Store} (h : s.module? p = none) :
    (Query.current p).eval s = (.error (.fileNotFound p), s) := by
  rw [eval_current, h]

@[simp] theorem eval_observe (q : Query α) (s : Store) :
    (Query.observe q).eval s = (.ok (q.eval s).1, (q.eval s).2) := rfl

theorem eval_map (f : α → β) (q : Query α) (s : Store) :
    (f <$> q).eval s = ((q.eval s).1.map f, (q.eval s).2) := by
  simp only [eval, ExceptT.run_map, StateT.run_map]
  rcases (ExceptT.run q).run s with ⟨_ | _, s'⟩ <;> rfl

theorem eval_forM_cons (a : β) (as : List β) (f : β → Query Unit) (s : Store) :
    (forM (a :: as) f).eval s =
      match (f a).eval s with
      | (.ok _, s') => (forM as f).eval s'
      | (.error e, s') => (.error e, s') := by
  rw [List.forM_cons, eval_bind]
  rcases (f a).eval s with ⟨_ | _, s'⟩ <;> rfl

-- The equations above are all that is needed of it; a store is never compared by running a query.
attribute [irreducible] eval

end Typings.Query
