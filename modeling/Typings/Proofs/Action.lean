import Typings.Term.Reading

/-!
# Running actions

`Action.eval` runs an action in a state.  An action that follows another one does the same step by
step, unless it gives up.
-/

namespace Typings

def Scope.empty : Scope Unit := ⟨fun _ => pure none, .standard⟩

def Scope.single (target : Identity) : Scope Unit :=
  ⟨fun name => pure (if name = target.name then some target else none), .standard⟩

theorem eq_ok_of_toOption {ε α : Type} {x : Except ε α} {a : α} (h : x.toOption = some a) :
    x = .ok a := by
  cases x with
  | error e => cases h
  | ok b => exact congrArg Except.ok (Option.some.inj h)

namespace Action

variable {σ α β : Type}

def eval (x : Action σ α) (s : σ) : Except Error α × σ := (ExceptT.run x).run s

theorem eval_bind (x : Action σ α) (f : α → Action σ β) (s : σ) :
    (x >>= f).eval s =
      match x.eval s with
      | (.ok a, s') => (f a).eval s'
      | (.error e, s') => (.error e, s') := by
  simp only [eval, ExceptT.run_bind, StateT.run_bind]
  rcases (ExceptT.run x).run s with ⟨_ | _, s'⟩ <;> rfl

theorem eval_bind_ok {x : Action σ α} {f : α → Action σ β} {s s' : σ} {a : α}
    (h : x.eval s = (.ok a, s')) : (x >>= f).eval s = (f a).eval s' := by
  rw [eval_bind, h]

theorem eval_bind_error {x : Action σ α} {f : α → Action σ β} {s s' : σ} {e : Error}
    (h : x.eval s = (.error e, s')) : (x >>= f).eval s = (.error e, s') := by
  rw [eval_bind, h]

theorem eval_lookup (scope : Scope σ) (name : String) (r : Reading σ) :
    (Reading.lookup scope name).eval r =
      (((scope.lookup name).eval r.names).1, ⟨r.depth, ((scope.lookup name).eval r.names).2⟩) := rfl

theorem eval_nested (limit : Option Nat) (inside : Action (Reading σ) α) (r : Reading σ) :
    (Reading.nested limit inside).eval r =
      if limit.any (· < r.depth + 1) then (.error .nestingTooDeep, r)
      else
        ((inside.eval ⟨r.depth + 1, r.names⟩).1,
          ⟨(inside.eval ⟨r.depth + 1, r.names⟩).2.depth - 1,
            (inside.eval ⟨r.depth + 1, r.names⟩).2.names⟩) := by
  change StateT.run (do
    let r ← get
    if limit.any (· < r.depth + 1) then return .error .nestingTooDeep
    set { r with depth := r.depth + 1 }
    let outcome ← inside.run
    modify fun r => { r with depth := r.depth - 1 }
    return outcome) r = _
  rw [StateT.run_bind, StateT.run_get]
  by_cases h : limit.any (· < r.depth + 1)
  · simp only [pure_bind, h, if_true]
    rfl
  · simp only [pure_bind, h, Bool.false_eq_true, if_false]
    rfl

/-! ## What an action gives -/

def Gives (P : α → Prop) (x : Action σ α) : Prop := ∀ s a, (x.eval s).1 = .ok a → P a

variable {P : α → Prop} {Q : β → Prop}

theorem Gives.pure {a : α} (h : P a) : Gives P (pure a : Action σ α) := by
  intro s b hb
  exact Except.ok.inj hb ▸ h

theorem Gives.throw (e : Error) : Gives P (throw e : Action σ α) := by
  intro s b hb
  cases hb

theorem Gives.any (x : Action σ α) : Gives (fun _ => True) x := fun _ _ _ => trivial

theorem Gives.bind {x : Action σ α} {f : α → Action σ β} (hx : x.Gives P)
    (hf : ∀ a, P a → (f a).Gives Q) : (x >>= f).Gives Q := by
  intro s b hb
  rcases heval : x.eval s with ⟨e | a, s'⟩
  · rw [eval_bind_error heval] at hb
    cases hb
  · rw [eval_bind_ok heval] at hb
    exact hf a (hx s a (by rw [heval])) s' b hb

/-! ## Two actions side by side -/

/--
A relation between actions that holds of an action put together from related parts.  Failures may
differ as `E` allows.
-/
structure Compositional {τ : Type} (E : Error → Error → Prop)
    (R : ∀ {α : Type}, Action σ α → Action τ α → Prop) : Prop where
  pure : ∀ {α : Type} (a : α), R (pure a) (pure a)
  throw : ∀ {α : Type} {e e' : Error}, E e e' → R (throw e : Action σ α) (throw e')
  bind : ∀ {α β : Type} {x : Action σ α} {y : Action τ α} {f : α → Action σ β} {g : α → Action τ β},
    R x y → (∀ a, R (f a) (g a)) → R (x >>= f) (y >>= g)

/-- The first run has given up as `X` allows, or both end in one state and alike. -/
inductive Agrees (X : Error → Prop) (E : Error → Error → Prop) :
    Except Error α × σ → Except Error α × σ → Prop
  | gaveUp {e : Error} {s : σ} {r : Except Error α × σ} (he : X e) : Agrees X E (.error e, s) r
  | failed {e e' : Error} {s : σ} (he : E e e') : Agrees X E (.error e, s) (.error e', s)
  | done (a : α) (s : σ) : Agrees X E (.ok a, s) (.ok a, s)

def Follows (X : Error → Prop) (E : Error → Error → Prop) (x y : Action σ α) : Prop :=
  ∀ s, Agrees X E (x.eval s) (y.eval s)

variable {X : Error → Prop} {E : Error → Error → Prop}

theorem Follows.gaveUp {e : Error} (he : X e) (y : Action σ α) : Follows X E (throw e) y :=
  fun _ => .gaveUp he

theorem Follows.bind {x y : Action σ α} {f g : α → Action σ β} (hx : Follows X E x y)
    (hf : ∀ a, Follows X E (f a) (g a)) : Follows X E (x >>= f) (y >>= g) := by
  intro s
  rcases hxs : x.eval s with ⟨e | a, s'⟩
  · have h := hx s
    rw [hxs] at h
    rw [eval_bind_error hxs]
    rcases hys : y.eval s with ⟨e' | a', s''⟩
    · rw [hys] at h
      rw [eval_bind_error hys]
      cases h with
      | gaveUp he => exact .gaveUp he
      | failed he => exact .failed he
    · rw [hys] at h
      cases h with
      | gaveUp he => exact .gaveUp he
  · have h := hx s
    rw [hxs] at h
    rw [eval_bind_ok hxs]
    rcases hys : y.eval s with ⟨e' | a', s''⟩
    · rw [hys] at h
      cases h
    · rw [hys] at h
      rw [eval_bind_ok hys]
      cases h
      exact hf a s'

theorem compositional_follows (X : Error → Prop) (E : Error → Error → Prop) :
    Compositional E (σ := σ) (Follows X E) where
  pure a := fun s => .done a s
  throw he := fun _ => .failed he
  bind hx hf := hx.bind hf

theorem Follows.refl (hE : ∀ e, E e e) (x : Action σ α) : Follows X E x x := by
  intro s
  rcases x.eval s with ⟨e | a, s'⟩
  · exact .failed (hE e)
  · exact .done a s'

end Action

end Typings
