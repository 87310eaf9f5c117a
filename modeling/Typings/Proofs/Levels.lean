import Typings.Proofs.Action

/-!
# One level of a type

`Reading.step` says what a level makes of the texts inside it, given how those are read.  A term
resolved afterwards and the reader that counts its levels both take this step, so a relation between
actions that holds of the texts inside holds of the level.
-/

namespace Typings.Reading

variable {σ τ : Type}

/-- What a level says, where `inside` reads the texts in it and `braces` reads an object. -/
def step (generic : Option (List Char)) (find : String → Action σ (Option Identity))
    (forms : Forms) (inside braces : List Char → Action σ Expr) :
    Except Error Tokens → Action σ Expr
  | .error e => throw e
  | .ok ⟨items, some joiner⟩ => do return .compound joiner (← inOrder (items.map inside))
  | .ok ⟨[token], none⟩ =>
      match Term.shape generic token with
      | .invalid e => throw e
      | .array element => do return .array (← inside element)
      | .group text => inside text
      | .object text => braces text
      | .literal value => pure (.literal value)
      | .primitive kind => pure (.primitive kind)
      | .generic => pure .generic
      | .named name none => do
          match ← find name with
          | some target => return .reference target none
          | none => return .unknown
      | .named name (some arguments) => do
          applied (← find name) (forms.get? name) (arguments.map inside)
      | .unknown => pure .unknown
  | .ok _ => pure .unknown

def objectOf (value : Except Error Tokens → Action σ Expr) (text : List Char) : Action σ Expr :=
  object (Object.scan text).outcome [] none <|
    (Object.scan text).entries.map fun entry => (entry.slot, value entry.value)

/-! ## The reader takes the step -/

theorem level_eq (limit : Option Nat) (generic : Option (List Char)) (scope : Scope σ)
    (tokens : Except Error Tokens) :
    level limit generic scope tokens =
      nested limit (step generic (lookup scope) scope.forms
        (fun text => level limit generic scope (Tokens.take text).1)
        (fun text => nested limit (objectOf (level limit generic scope) text)) tokens) := by
  rw [level.eq_def]
  congr 1
  split
  · rfl
  · rw [List.attach_map_val (f := fun item => level limit generic scope (Tokens.take item).1)]
    rfl
  next token =>
    rw [step]
    cases Term.shape generic token with
    | object text =>
        dsimp only
        rw [objectOf, List.attach_map_val
          (f := fun entry : Object.Entry => (entry.slot, level limit generic scope entry.value))]
    | named name arguments =>
        cases arguments with
        | none => rfl
        | some arguments =>
            dsimp only
            rw [List.attach_map_val
              (f := fun argument => level limit generic scope (Tokens.take argument).1)]
    | _ => rfl
  next t hcompound htoken => rw [step.eq_4 _ _ _ _ _ t hcompound htoken]

/-! ## A term that is resolved takes the step -/

variable (scope : Scope σ)

theorem resolveAll_eq (terms : List Term) :
    Term.resolveAll scope terms = inOrder (terms.map (·.resolve scope)) := by
  induction terms with
  | nil => rw [Term.resolveAll, List.map_nil, inOrder]
  | cons t ts ih => rw [Term.resolveAll, List.map_cons, inOrder, ih]

theorem resolve_compound (joiner : Joiner) (members : List Term) :
    (Term.compound joiner members).resolve scope = do
      return .compound joiner (← inOrder (members.map (·.resolve scope))) := by
  rw [Term.resolve, resolveAll_eq]

theorem resolve_named (name : String) (arguments : List Term) :
    (Term.named name (some arguments)).resolve scope =
      (scope.lookup name >>= fun found =>
        applied found (scope.forms.get? name) (arguments.map (·.resolve scope))) := by
  match arguments with
  | [] =>
      rw [Term.resolve]
      any_goals simp
      refine congrArg (scope.lookup name >>= ·) (funext fun found => ?_)
      cases found <;> rfl
  | [argument] =>
      rw [Term.resolve]
      refine congrArg (scope.lookup name >>= ·) (funext fun found => ?_)
      cases found with
      | some target => rfl
      | none =>
          cases scope.forms.get? name with
          | none => rfl
          | some form => cases form <;> rfl
  | [first, value] =>
      rw [Term.resolve]
      refine congrArg (scope.lookup name >>= ·) (funext fun found => ?_)
      cases found with
      | some target => rfl
      | none =>
          cases scope.forms.get? name with
          | none => rfl
          | some form => cases form <;> rfl
  | _ :: _ :: _ :: _ =>
      rw [Term.resolve]
      any_goals simp
      refine congrArg (scope.lookup name >>= ·) (funext fun found => ?_)
      cases found <;> rfl

theorem resolve_bodyOf (value : Except Error Tokens → Term) (outcome : Except Error (List Char))
    (entries : List Object.Entry) (properties : List (Property Expr)) (dynamic : Option Expr) :
    (do
      let (properties, dynamic) ←
        (Term.bodyOf value outcome entries).resolve scope properties dynamic
      return .object properties dynamic) =
    object outcome properties dynamic
      (entries.map fun entry => (entry.slot, (value entry.value).resolve scope)) := by
  induction entries generalizing properties dynamic with
  | nil =>
      cases outcome with
      | ok rest => simp only [Term.bodyOf, Body.resolve, pure_bind]; rfl
      | error e => simp only [Term.bodyOf, Body.resolve]; rfl
  | cons entry entries ih =>
      obtain ⟨slot, v⟩ := entry
      cases slot with
      | named key optional =>
          simp only [Term.bodyOf, Body.resolve, bind_assoc, ih, List.map_cons, object]
      | dynamic => simp only [Term.bodyOf, Body.resolve, bind_assoc, ih, List.map_cons, object]

theorem resolve_objectOf (value : Except Error Tokens → Term) (text : List Char) :
    (Term.objectOf value text).resolve scope =
      objectOf (fun tokens => (value tokens).resolve scope) text := by
  rw [Term.objectOf, Term.resolve, objectOf, ← resolve_bodyOf]

def bracesWithin (generic : Option (List Char)) (n : Nat) (text : List Char) : Action σ Expr :=
  match n with
  | 0 => throw .nestingTooDeep
  | m + 1 => objectOf (fun tokens => (Term.ofLevel generic m tokens).resolve scope) text

theorem resolve_ofLevel_zero (generic : Option (List Char)) (tokens : Except Error Tokens) :
    (Term.ofLevel generic 0 tokens).resolve scope = throw .nestingTooDeep := by
  rw [Term.ofLevel, Term.resolve]

theorem resolve_ofLevel_succ (generic : Option (List Char)) (n : Nat)
    (tokens : Except Error Tokens) :
    (Term.ofLevel generic (n + 1) tokens).resolve scope =
      step generic scope.lookup scope.forms
        (fun text => (Term.ofLevel generic n (Tokens.take text).1).resolve scope)
        (bracesWithin scope generic n) tokens := by
  match tokens with
  | .error e => rw [Term.ofLevel, Term.resolve, step]
  | .ok ⟨items, some joiner⟩ =>
      rw [Term.ofLevel, resolve_compound, step, List.map_map]
      rfl
  | .ok ⟨[token], none⟩ =>
      rw [Term.ofLevel, step]
      dsimp only
      cases Term.shape generic token with
      | object text =>
          cases n with
          | zero =>
              unfold Term.resolve
              rfl
          | succ m => exact resolve_objectOf scope _ text
      | named name arguments =>
          cases arguments with
          | none =>
              unfold Term.resolve
              rfl
          | some arguments =>
              have hnamed := resolve_named scope name
                (arguments.map fun text => Term.ofLevel generic n (Tokens.take text).1)
              rw [List.map_map] at hnamed
              exact hnamed
      | group text => rfl
      | array element => rw [Term.resolve]
      | invalid e => rw [Term.resolve]
      | literal value => rw [Term.resolve]
      | primitive kind => rw [Term.resolve]
      | generic => rw [Term.resolve]
      | unknown => rw [Term.resolve]
  | .ok ⟨[], none⟩ => rw [Term.ofLevel, Term.resolve, step] <;> simp
  | .ok ⟨_ :: _ :: _, none⟩ => rw [Term.ofLevel, Term.resolve, step] <;> simp

/-! ## What holds of the parts holds of the level -/

section Congruence

variable {α : Type} {E : Error → Error → Prop}
  {R : ∀ {α : Type}, Action σ α → Action τ α → Prop}

theorem inOrder_congr (hR : Action.Compositional E R) {as : List α} {f : α → Action σ Expr}
    {g : α → Action τ Expr} (h : ∀ a ∈ as, R (f a) (g a)) :
    R (inOrder (as.map f)) (inOrder (as.map g)) := by
  induction as with
  | nil => exact hR.pure []
  | cons a as ih =>
      refine hR.bind (h a (List.mem_cons_self ..)) fun e => ?_
      refine hR.bind (ih fun b hb => h b (List.mem_cons_of_mem _ hb)) fun es => ?_
      exact hR.pure (e :: es)

theorem applied_congr (hR : Action.Compositional E R) (found : Option Identity)
    (form : Option Form) {as : List α} {f : α → Action σ Expr} {g : α → Action τ Expr}
    (h : ∀ a ∈ as, R (f a) (g a)) :
    R (applied found form (as.map f)) (applied found form (as.map g)) := by
  match as with
  | [] => cases found <;> exact hR.pure _
  | [argument] =>
      have hargument := h argument (List.mem_cons_self ..)
      cases found with
      | some target => exact hR.bind hargument fun _ => hR.pure _
      | none =>
          match form with
          | some .allOptional => exact hR.bind hargument fun _ => hR.pure _
          | some .promise => exact hR.bind hargument fun _ => hR.pure _
          | some .record => exact hR.pure _
          | none => exact hR.pure _
  | [first, value] =>
      have hvalue := h value (by simp)
      cases found with
      | some target => exact hR.pure _
      | none =>
          match form with
          | some .record => exact hR.bind hvalue fun _ => hR.pure _
          | some .allOptional => exact hR.pure _
          | some .promise => exact hR.pure _
          | none => exact hR.pure _
  | _ :: _ :: _ :: _ => cases found <;> exact hR.pure _

inductive SameOutcome (E : Error → Error → Prop) :
    Except Error (List Char) → Except Error (List Char) → Prop
  | closed (rest rest' : List Char) : SameOutcome E (.ok rest) (.ok rest')
  | failed {e e' : Error} (he : E e e') : SameOutcome E (.error e) (.error e')

theorem SameOutcome.refl (hE : ∀ e, E e e) (outcome : Except Error (List Char)) :
    SameOutcome E outcome outcome := by
  cases outcome with
  | error e => exact .failed (hE e)
  | ok rest => exact .closed rest rest

theorem object_congr (hR : Action.Compositional E R) {outcome outcome' : Except Error (List Char)}
    (houtcome : SameOutcome E outcome outcome') {as : List α} (slot : α → Object.Slot)
    {f : α → Action σ Expr} {g : α → Action τ Expr} (h : ∀ a ∈ as, R (f a) (g a))
    (properties : List (Property Expr)) (dynamic : Option Expr) :
    R (object outcome properties dynamic (as.map fun a => (slot a, f a)))
      (object outcome' properties dynamic (as.map fun a => (slot a, g a))) := by
  induction as generalizing properties dynamic with
  | nil =>
      cases houtcome with
      | closed => exact hR.pure _
      | failed he => exact hR.throw he
  | cons a as ih =>
      have hrest := ih fun b hb => h b (List.mem_cons_of_mem _ hb)
      simp only [List.map_cons]
      cases slot a with
      | named key optional =>
          exact hR.bind (h a (List.mem_cons_self ..)) fun e => hrest _ _
      | dynamic => exact hR.bind (h a (List.mem_cons_self ..)) fun e => hrest _ _

theorem step_congr (hR : Action.Compositional E R) (hE : ∀ e, E e e)
    {generic : Option (List Char)} {find : String → Action σ (Option Identity)}
    {find' : String → Action τ (Option Identity)} (hfind : ∀ name, R (find name) (find' name))
    (forms : Forms) {inside braces : List Char → Action σ Expr}
    {inside' braces' : List Char → Action τ Expr} {tokens : Except Error Tokens}
    (hinside : ∀ text, Tokens.sizeOf (Tokens.take text).1 < Tokens.sizeOf tokens →
      R (inside text) (inside' text))
    (hbraces : ∀ token, Term.shape generic token = .object token →
      tokens = .ok ⟨[token], none⟩ → R (braces token) (braces' token)) :
    R (step generic find forms inside braces tokens)
      (step generic find' forms inside' braces' tokens) := by
  match tokens with
  | .error e => exact hR.throw (hE e)
  | .ok ⟨items, some joiner⟩ =>
      refine hR.bind (inOrder_congr hR fun item hitem => ?_) fun _ => hR.pure _
      exact hinside item (Tokens.size_member_lt hitem)
  | .ok ⟨[token], none⟩ =>
      have htext : ∀ {shape : Term.Shape}, Term.shape generic token = shape →
          ∀ text ∈ shape.texts, R (inside text) (inside' text) :=
        fun hshape text htext => hinside text (Tokens.size_text_lt hshape htext)
      rw [step, step]
      cases hshape : Term.shape generic token with
      | invalid e => exact hR.throw (hE e)
      | array element =>
          exact hR.bind (htext hshape element (by simp [Term.Shape.texts])) fun _ => hR.pure _
      | group text => exact htext hshape text (by simp [Term.Shape.texts])
      | object text =>
          obtain rfl := (Term.eq_of_shape_object hshape).1
          exact hbraces text hshape rfl
      | literal value => exact hR.pure _
      | primitive kind => exact hR.pure _
      | generic => exact hR.pure _
      | named name arguments =>
          cases arguments with
          | none =>
              refine hR.bind (hfind name) fun found => ?_
              cases found <;> exact hR.pure _
          | some arguments =>
              exact hR.bind (hfind name) fun found => applied_congr hR found _ (htext hshape)
      | unknown => exact hR.pure _
  | .ok ⟨[], none⟩ => exact hR.pure _
  | .ok ⟨_ :: _ :: _, none⟩ => exact hR.pure _

end Congruence

end Typings.Reading
