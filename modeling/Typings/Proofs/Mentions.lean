import Typings.Proofs.Keeps

/-!
# The types that an expression mentions

Resolving a term puts together what look-ups have given.  If they give known types only, and nothing
is forgotten in between, the expression mentions known types only.
-/

namespace Typings

/-! ## Expressions -/

inductive Expr.Within (A : Identity → Prop) : Expr → Prop
  | reference {target : Identity} {argument : Option Expr} (htarget : A target)
      (hargument : ∀ e ∈ argument, Within A e) : Within A (.reference target argument)
  | literal (value : Literal) : Within A (.literal value)
  | primitive (kind : Primitive) : Within A (.primitive kind)
  | array {element : Expr} (helement : Within A element) : Within A (.array element)
  | object {properties : List (Property Expr)} {dynamic : Option Expr}
      (hproperties : ∀ p ∈ properties, Within A p.value) (hdynamic : ∀ e ∈ dynamic, Within A e) :
      Within A (.object properties dynamic)
  | promise {inner : Expr} (hinner : Within A inner) : Within A (.promise inner)
  | compound {joiner : Joiner} {members : List Expr} (hmembers : ∀ e ∈ members, Within A e) :
      Within A (.compound joiner members)
  | generic : Within A .generic
  | unknown : Within A .unknown

theorem Expr.Within.mono {A B : Identity → Prop} (h : ∀ a, A a → B a) {e : Expr}
    (he : e.Within A) : e.Within B := by
  induction he with
  | reference htarget _ ih => exact .reference (h _ htarget) ih
  | literal value => exact .literal value
  | primitive kind => exact .primitive kind
  | array _ ih => exact .array ih
  | object _ _ ihp ihd => exact .object ihp ihd
  | promise _ ih => exact .promise ih
  | compound _ ih => exact .compound ih
  | generic => exact .generic
  | unknown => exact .unknown

theorem Expr.Within.reference_unknown {A : Identity → Prop} {target : Identity} (h : A target) :
    (Expr.reference target (some .unknown)).Within A := by
  refine .reference h ?_
  rintro _ ⟨rfl⟩
  exact .unknown

theorem Expr.Within.madePartial {A : Identity → Prop} {e : Expr} (h : e.Within A) :
    e.madePartial.Within A := by
  cases h with
  | object hproperties hdynamic =>
      refine .object (fun p hp => ?_) hdynamic
      obtain ⟨q, hq, rfl⟩ := List.mem_map.1 hp
      exact hproperties q hq
  | _ => exact .unknown

theorem Property.mem_insert {α : Type} {p q : Property α} {ps : List (Property α)}
    (h : q ∈ Property.insert p ps) : q = p ∨ q ∈ ps := by
  induction ps with
  | nil => simpa [Property.insert] using h
  | cons p' ps ih =>
      simp only [Property.insert] at h
      split at h
      · exact (List.mem_cons.1 h).imp_right (List.mem_cons_of_mem _)
      · rcases List.mem_cons.1 h with rfl | h
        · exact .inr (List.mem_cons_self ..)
        · exact (ih h).imp_right (List.mem_cons_of_mem _)

/-! ## Queries -/

section Queries

variable {α β : Type} {I : Store → Prop} {D : Store → Identity → Prop} {s : Store}

/--
In the store `s` the query keeps `I`, it forgets none of the known types `D`, and what it gives has
`R` in the store that it leaves.
-/
structure Query.YieldsAt (I : Store → Prop) (D : Store → Identity → Prop) (R : Store → α → Prop)
    (s : Store) (q : Query α) : Prop where
  keeps : I (q.eval s).2
  known : ∀ a, D s a → D (q.eval s).2 a
  gives : ∀ a, (q.eval s).1 = .ok a → R (q.eval s).2 a

namespace Query.YieldsAt

variable {R : Store → α → Prop} {R' : Store → β → Prop}

theorem pure (hs : I s) {a : α} (ha : R s a) :
    Query.YieldsAt I D R s (Pure.pure a : Query α) := by
  refine ⟨?_, fun b hb => ?_, fun b hb => ?_⟩
  · rwa [eval_pure]
  · rwa [eval_pure]
  · rw [eval_pure] at hb ⊢
    exact Except.ok.inj hb ▸ ha

theorem throw (hs : I s) (e : Error) : Query.YieldsAt I D R s (throw e : Query α) := by
  refine ⟨?_, fun b hb => ?_, fun b hb => ?_⟩
  · rwa [eval_throw]
  · rwa [eval_throw]
  · rw [eval_throw] at hb
    cases hb

theorem bind {q : Query α} (hq : q.YieldsAt I D R s) {f : α → Query β}
    (hf : ∀ a s', I s' → (∀ b, D s b → D s' b) → R s' a → (f a).YieldsAt I D R' s') :
    (q >>= f).YieldsAt I D R' s := by
  obtain ⟨hkeeps, hknown, hgives⟩ := hq
  rcases heval : q.eval s with ⟨e | a, s'⟩
  · rw [heval] at hkeeps hknown
    refine ⟨?_, ?_, fun b hb => ?_⟩
    · rwa [eval_bind_error heval]
    · rwa [eval_bind_error heval]
    · rw [eval_bind_error heval] at hb
      cases hb
  · rw [heval] at hkeeps hknown hgives
    obtain ⟨hkeeps', hknown', hgives'⟩ := hf a s' hkeeps hknown (hgives a rfl)
    refine ⟨?_, fun b hb => ?_, ?_⟩
    · rwa [eval_bind_ok heval]
    · rw [eval_bind_ok heval]
      exact hknown' b (hknown b hb)
    · rwa [eval_bind_ok heval]

end Query.YieldsAt

end Queries

/-! ## Resolving terms -/

section Resolve

variable {I : Store → Prop} {D : Store → Identity → Prop} {scope : Scope Store}

open Query

def Scope.Yields (I : Store → Prop) (D : Store → Identity → Prop) (scope : Scope Store) : Prop :=
  ∀ name s, I s → Query.YieldsAt I D (fun s found => ∀ a ∈ found, D s a) s (scope.lookup name)

mutual

theorem Term.yields_resolve (h : scope.Yields I D) :
    ∀ (t : Term) (s : Store), I s →
      Query.YieldsAt I D (fun s e => e.Within (D s)) s (t.resolve scope)
  | .invalid cause, s, hs => by
      rw [Term.resolve]
      exact .throw hs cause
  | .literal value, s, hs => by
      rw [Term.resolve]
      exact .pure hs (.literal value)
  | .primitive kind, s, hs => by
      rw [Term.resolve]
      exact .pure hs (.primitive kind)
  | .array element, s, hs => by
      rw [Term.resolve]
      exact (Term.yields_resolve h element s hs).bind fun e s' hs' _ he => .pure hs' (.array he)
  | .object body, s, hs => by
      rw [Term.resolve]
      exact (Body.yields_resolve h body [] none s hs (by simp) (by simp)).bind
        fun x s' hs' _ hx => .pure hs' (.object hx.1 hx.2)
  | .compound joiner members, s, hs => by
      rw [Term.resolve]
      exact (Term.yields_resolveAll h members s hs).bind fun es s' hs' _ hes =>
        .pure hs' (.compound hes)
  | .named name none, s, hs => by
      rw [Term.resolve]
      refine (h name s hs).bind fun found s' hs' _ hfound => ?_
      split
      · exact .pure hs' (.reference (hfound _ rfl) (by simp))
      · exact .pure hs' .unknown
  | .named name (some [argument]), s, hs => by
      rw [Term.resolve]
      refine (h name s hs).bind fun found s' hs' _ hfound => ?_
      have hargument := Term.yields_resolve h argument s' hs'
      split
      · next target =>
          refine hargument.bind fun e s₁ hs₁ hknown he =>
            .pure hs₁ (.reference (hknown _ (hfound _ rfl)) ?_)
          rintro e' ⟨rfl⟩
          exact he
      · split
        · exact hargument.bind fun e s₁ hs₁ _ he => .pure hs₁ he.madePartial
        · exact hargument.bind fun e s₁ hs₁ _ he => .pure hs₁ (.promise he)
        · exact .pure hs' .unknown
  | .named name (some [_, value]), s, hs => by
      rw [Term.resolve]
      refine (h name s hs).bind fun found s' hs' _ hfound => ?_
      split
      · exact .pure hs' (.reference_unknown (hfound _ rfl))
      · split
        · refine (Term.yields_resolve h value s' hs').bind fun e s₁ hs₁ _ he =>
            .pure hs₁ (.object (by simp) ?_)
          rintro e' ⟨rfl⟩
          exact he
        · exact .pure hs' .unknown
  | .named name (some []), s, hs => by
      rw [Term.resolve]
      any_goals simp
      refine (h name s hs).bind fun found s' hs' _ hfound => ?_
      split
      · exact .pure hs' (.reference_unknown (hfound _ rfl))
      · exact .pure hs' .unknown
  | .named name (some (_ :: _ :: _ :: _)), s, hs => by
      rw [Term.resolve]
      any_goals simp
      refine (h name s hs).bind fun found s' hs' _ hfound => ?_
      split
      · exact .pure hs' (.reference_unknown (hfound _ rfl))
      · exact .pure hs' .unknown
  | .generic, s, hs => by
      rw [Term.resolve]
      exact .pure hs .generic
  | .unknown, s, hs => by
      rw [Term.resolve]
      exact .pure hs .unknown

theorem Term.yields_resolveAll (h : scope.Yields I D) :
    ∀ (ts : List Term) (s : Store), I s →
      Query.YieldsAt I D (fun s es => ∀ e ∈ es, e.Within (D s)) s (Term.resolveAll scope ts)
  | [], s, hs => by
      rw [Term.resolveAll]
      exact .pure hs (by simp)
  | t :: ts, s, hs => by
      rw [Term.resolveAll]
      refine (Term.yields_resolve h t s hs).bind fun e s₁ hs₁ _ he =>
        (Term.yields_resolveAll h ts s₁ hs₁).bind fun es s₂ hs₂ hknown hes => .pure hs₂ ?_
      exact List.forall_mem_cons.2 ⟨he.mono hknown, hes⟩

theorem Body.yields_resolve (h : scope.Yields I D) :
    ∀ (b : Body) (properties : List (Property Expr)) (dynamic : Option Expr) (s : Store), I s →
      (∀ p ∈ properties, p.value.Within (D s)) → (∀ e ∈ dynamic, e.Within (D s)) →
      Query.YieldsAt I D (fun s x => (∀ p ∈ x.1, p.value.Within (D s)) ∧
        ∀ e ∈ x.2, e.Within (D s)) s (b.resolve scope properties dynamic)
  | .closed, _, _, s, hs, hproperties, hdynamic => by
      rw [Body.resolve]
      exact .pure hs ⟨hproperties, hdynamic⟩
  | .broken cause, _, _, s, hs, _, _ => by
      rw [Body.resolve]
      exact .throw hs cause
  | .property key optional value rest, properties, dynamic, s, hs, hproperties, hdynamic => by
      rw [Body.resolve]
      refine (Term.yields_resolve h value s hs).bind fun e s₁ hs₁ hknown he =>
        Body.yields_resolve h rest _ _ s₁ hs₁ (fun p hp => ?_) fun e he =>
          (hdynamic e he).mono hknown
      rcases Property.mem_insert hp with rfl | hp
      · exact he
      · exact (hproperties p hp).mono hknown
  | .dynamic value rest, properties, dynamic, s, hs, hproperties, hdynamic => by
      rw [Body.resolve]
      refine (Term.yields_resolve h value s hs).bind fun e s₁ hs₁ hknown he =>
        Body.yields_resolve h rest _ _ s₁ hs₁ (fun p hp => (hproperties p hp).mono hknown) ?_
      rintro e' ⟨rfl⟩
      exact he

end

theorem Declaration.Written.yields_resolve (h : scope.Yields I D)
    (w : Declaration.Written) {s : Store} (hs : I s) :
    Query.YieldsAt I D (fun s e => e.Within (D s)) s (w.resolve scope) := by
  refine (Term.yields_resolve h w.body s hs).bind fun body s₁ hs₁ _ hbody => ?_
  split
  · exact .pure hs₁ hbody
  · refine (Term.yields_resolveAll h w.bases s₁ hs₁).bind fun bases s₂ hs₂ hknown hbases =>
      .pure hs₂ (.compound fun e he => ?_)
    rcases List.mem_append.1 he with he | he
    · exact hbases e he
    · exact List.mem_singleton.1 he ▸ hbody.mono hknown

end Resolve

end Typings
