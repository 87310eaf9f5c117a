import Typings.Expr.Display
import Typings.Proofs.Levels
import Typings.Proofs.Mentions

/-!
# The limit on nesting

The reader counts the levels around it and gives up where there would be too many.  It leaves every
level that it enters, and short of giving up the limit makes no difference: the main statement is
`parse_within_limit`.  Both follow from one description of the reader, as a term of so many levels
that is resolved.
-/

namespace Typings

namespace Reading

variable {σ : Type}

/-! ## The reader as a term that is resolved -/

section Counts

variable {α : Type} {depth : Nat}

/-- The reader does what `y` does, and has as many levels around it afterwards as before. -/
def Counts (depth : Nat) (x : Action (Reading σ) α) (y : Action σ α) : Prop :=
  ∀ s, x.eval ⟨depth, s⟩ = ((y.eval s).1, ⟨depth, (y.eval s).2⟩)

theorem Counts.bind {β : Type} {x : Action (Reading σ) α} {y : Action σ α}
    {f : α → Action (Reading σ) β} {g : α → Action σ β} (hx : Counts depth x y)
    (hf : ∀ a, Counts depth (f a) (g a)) : Counts depth (x >>= f) (y >>= g) := by
  intro s
  rcases hy : y.eval s with ⟨e | a, s'⟩
  · have hxs := hx s
    rw [hy] at hxs
    rw [Action.eval_bind_error hxs, Action.eval_bind_error hy]
  · have hxs := hx s
    rw [hy] at hxs
    rw [Action.eval_bind_ok hxs, Action.eval_bind_ok hy]
    exact hf a s'

theorem compositional_counts (depth : Nat) :
    Action.Compositional (σ := Reading σ) (τ := σ) Eq (Counts depth) where
  pure _ _ := rfl
  throw he _ := by rw [he]; rfl
  bind hx hf := hx.bind hf

theorem counts_lookup (scope : Scope σ) (name : String) :
    Counts depth (lookup scope name) (scope.lookup name) := fun _ => rfl

theorem counts_nested {limit : Option Nat} (hroom : ¬ limit.any (· < depth + 1))
    {x : Action (Reading σ) α} {y : Action σ α} (hx : Counts (depth + 1) x y) :
    Counts depth (nested limit x) y := by
  intro s
  rw [Action.eval_nested, if_neg hroom, hx s, Nat.add_sub_cancel]

theorem counts_nested_of_full {limit : Option Nat} (hfull : limit.any (· < depth + 1))
    (x : Action (Reading σ) α) : Counts depth (nested limit x) (throw .nestingTooDeep) := by
  intro s
  rw [Action.eval_nested, if_pos hfull]
  rfl

end Counts

/--
With `depth` levels around the reader, `n` more can be entered from a level of the given size: as
many as the limit leaves, and more than enough where there is none.
-/
def Leaves (limit : Option Nat) (depth n size : Nat) : Prop :=
  match limit with
  | some most => n = most - depth
  | none => size < n

namespace Leaves

variable {limit : Option Nat} {depth n size size' : Nat}

theorem full (h : Leaves limit depth 0 size) : limit.any (· < depth + 1) := by
  cases limit with
  | none => exact absurd h (Nat.not_lt_zero _)
  | some most =>
      simp only [Leaves, Option.any_some, decide_eq_true_eq] at h ⊢
      omega

theorem not_full (h : Leaves limit depth (n + 1) size) : ¬ limit.any (· < depth + 1) := by
  cases limit with
  | none => simp
  | some most =>
      simp only [Leaves, Option.any_some, decide_eq_true_eq] at h ⊢
      omega

theorem inside (h : Leaves limit depth (n + 1) size) (hsize : size' < size) :
    Leaves limit (depth + 1) n size' := by
  cases limit <;> simp only [Leaves] at h ⊢ <;> omega

end Leaves

theorem level_counts {limit : Option Nat} (generic : Option (List Char)) (scope : Scope σ) (n : Nat)
    (depth : Nat) (tokens : Except Error Tokens)
    (hn : Leaves limit depth n (Tokens.sizeOf tokens)) :
    Counts depth (level limit generic scope tokens)
      ((Term.ofLevel generic n tokens).resolve scope) := by
  induction n using Nat.strongRecOn generalizing depth tokens with
  | ind n ih =>
      rw [level_eq]
      cases n with
      | zero =>
          rw [resolve_ofLevel_zero]
          exact counts_nested_of_full hn.full _
      | succ n =>
          rw [resolve_ofLevel_succ]
          refine counts_nested hn.not_full (step_congr (compositional_counts _) (fun _ => rfl)
            (counts_lookup scope) scope.forms (fun text htext => ?_) fun token htoken htokens => ?_)
          · exact ih n (Nat.lt_succ_self n) _ _ (hn.inside htext)
          · subst htokens
            have hpos : 0 < Tokens.sizeOf (.ok ⟨[token], none⟩) := by
              obtain ⟨-, tail, rfl⟩ := Term.eq_of_shape_object htoken
              simp [Tokens.sizeOf_token]
            cases n with
            | zero => exact counts_nested_of_full (hn.inside hpos).full _
            | succ n =>
                refine counts_nested (hn.inside hpos).not_full
                  (object_congr (compositional_counts _) (.refl (fun _ => rfl) _) _
                    (fun entry hentry => ?_) _ _)
                have hbraces := hn.inside (Tokens.size_value_lt htoken hentry)
                exact ih n (by omega) _ _ (hbraces.inside (Nat.lt_succ_self _))

/-! ## Fewer levels -/

def TooDeep (e : Error) : Prop := e = .nestingTooDeep

/-- With fewer levels a term says the same, or it is given up. -/
theorem follows_ofLevel (generic : Option (List Char)) (scope : Scope σ) {n m : Nat} (h : n ≤ m)
    (tokens : Except Error Tokens) :
    Action.Follows TooDeep Eq ((Term.ofLevel generic n tokens).resolve scope)
      ((Term.ofLevel generic m tokens).resolve scope) := by
  have hcompositional := Action.compositional_follows (σ := σ) TooDeep Eq
  induction n using Nat.strongRecOn generalizing m tokens with
  | ind n ih =>
      match n, m, h with
      | 0, _, _ =>
          rw [resolve_ofLevel_zero]
          exact .gaveUp (X := TooDeep) rfl _
      | n + 1, m + 1, h =>
          have hnm : n ≤ m := Nat.le_of_succ_le_succ h
          rw [resolve_ofLevel_succ, resolve_ofLevel_succ]
          refine step_congr hcompositional (fun _ => rfl) (fun name => .refl (fun _ => rfl) _)
            scope.forms (fun text _ => ih n (Nat.lt_succ_self n) hnm _) fun token _ _ => ?_
          match n, m, hnm with
          | 0, _, _ => exact .gaveUp (X := TooDeep) rfl _
          | n + 1, m + 1, hnm =>
              refine object_congr hcompositional (.refl (fun _ => rfl) _) _ (fun entry _ => ?_) _ _
              exact ih n (by omega) (Nat.le_of_succ_le_succ hnm) _

/-! ## Heights -/

end Reading

namespace Expr

mutual

def height : Expr → Nat
  | .reference _ none => 1
  | .reference _ (some argument) => argument.height + 1
  | .array element => element.height + 1
  | .object properties none => heightOfProperties properties + 1
  | .object properties (some dynamic) =>
      max (heightOfProperties properties) dynamic.height + 1
  | .promise inner => inner.height + 1
  | .compound _ members => heightOfMembers members + 1
  | .literal _ | .primitive _ | .generic | .unknown => 1

def heightOfProperties : List (Property Expr) → Nat
  | [] => 0
  | ⟨_, _, value⟩ :: properties => max value.height (heightOfProperties properties)

def heightOfMembers : List Expr → Nat
  | [] => 0
  | member :: members => max member.height (heightOfMembers members)

end

variable {n : Nat}

theorem heightOfMembers_le {members : List Expr} (h : ∀ e ∈ members, e.height ≤ n) :
    heightOfMembers members ≤ n := by
  induction members with
  | nil => exact Nat.zero_le n
  | cons member members ih =>
      rw [List.forall_mem_cons] at h
      rw [heightOfMembers]
      exact Nat.max_le.2 ⟨h.1, ih h.2⟩

theorem heightOfProperties_le_iff {properties : List (Property Expr)} :
    heightOfProperties properties ≤ n ↔ ∀ p ∈ properties, p.value.height ≤ n := by
  induction properties with
  | nil => simp [heightOfProperties]
  | cons p properties ih => rw [heightOfProperties, Nat.max_le, ih, List.forall_mem_cons]

theorem height_object_le {properties : List (Property Expr)} {dynamic : Option Expr}
    (hproperties : ∀ p ∈ properties, p.value.height ≤ n) (hdynamic : ∀ e ∈ dynamic, e.height ≤ n) :
    (object properties dynamic).height ≤ n + 1 := by
  have h := heightOfProperties_le_iff.2 hproperties
  cases dynamic with
  | none => exact Nat.succ_le_succ h
  | some e => exact Nat.succ_le_succ (Nat.max_le.2 ⟨h, hdynamic e rfl⟩)

theorem height_pos (e : Expr) : 0 < e.height := by
  unfold height
  split <;> omega

theorem height_madePartial_le (e : Expr) : e.madePartial.height ≤ e.height := by
  unfold madePartial
  split
  next properties dynamic =>
    have h : heightOfProperties (properties.map Property.madeOptional) ≤
        heightOfProperties properties := by
      refine heightOfProperties_le_iff.2 fun p hp => ?_
      obtain ⟨q, hq, rfl⟩ := List.mem_map.1 hp
      exact heightOfProperties_le_iff.1 (Nat.le_refl _) q hq
    cases dynamic <;> simp only [height] <;> omega
  · exact height_pos e

end Expr

namespace Reading

variable {n : Nat}

def Upto (n : Nat) (x : Action σ Expr) : Prop := x.Gives fun e => e.height ≤ n

theorem gives_inOrder {xs : List (Action σ Expr)} (h : ∀ x ∈ xs, Upto n x) :
    (inOrder xs).Gives fun es => ∀ e ∈ es, e.height ≤ n := by
  induction xs with
  | nil => exact .pure (by simp)
  | cons x xs ih =>
      rw [List.forall_mem_cons] at h
      refine h.1.bind fun e he => (ih h.2).bind fun es hes => .pure ?_
      exact List.forall_mem_cons.2 ⟨he, hes⟩

theorem upto_applied (found : Option Identity) (form : Option Form) {xs : List (Action σ Expr)}
    (hn : 0 < n) (h : ∀ x ∈ xs, Upto n x) : Upto (n + 1) (applied found form xs) := by
  have hleaf : Upto (n + 1) (pure .unknown : Action σ Expr) :=
    .pure (Nat.succ_le_succ (Nat.zero_le n))
  -- an argument that is not read stands below the name without a level of its own
  have hunread : ∀ target, Upto (n + 1)
      (pure (.reference target (some .unknown)) : Action σ Expr) :=
    fun _ => .pure (Nat.succ_le_succ hn)
  match xs with
  | [] => cases found <;> simp only [applied, hleaf, hunread]
  | [argument] =>
      have hargument := h argument (by simp)
      cases found with
      | some target => exact hargument.bind fun e he => .pure (Nat.succ_le_succ he)
      | none =>
          rcases form with _ | form
          · exact hleaf
          cases form with
          | allOptional =>
              exact hargument.bind fun e he =>
                .pure (Nat.le_trans (Expr.height_madePartial_le e) (Nat.le_succ_of_le he))
          | promise => exact hargument.bind fun e he => .pure (Nat.succ_le_succ he)
          | record => exact hleaf
  | [first, value] =>
      have hvalue := h value (by simp)
      cases found with
      | some target => exact hunread target
      | none =>
          rcases form with _ | form
          · exact hleaf
          cases form with
          | record =>
              refine hvalue.bind fun e he => .pure (Expr.height_object_le (by simp) ?_)
              rintro _ ⟨rfl⟩
              exact he
          | allOptional => exact hleaf
          | promise => exact hleaf
  | _ :: _ :: _ :: _ => cases found <;> simp only [applied, hleaf, hunread]

theorem upto_object (outcome : Except Error (List Char)) {properties : List (Property Expr)}
    {dynamic : Option Expr} {entries : List (Object.Slot × Action σ Expr)}
    (hproperties : ∀ p ∈ properties, p.value.height ≤ n) (hdynamic : ∀ e ∈ dynamic, e.height ≤ n)
    (h : ∀ entry ∈ entries, Upto n entry.2) :
    Upto (n + 1) (object outcome properties dynamic entries) := by
  induction entries generalizing properties dynamic with
  | nil =>
      cases outcome with
      | error e => exact .throw e
      | ok rest => exact .pure (Expr.height_object_le hproperties hdynamic)
  | cons entry entries ih =>
      obtain ⟨slot, value⟩ := entry
      rw [List.forall_mem_cons] at h
      cases slot with
      | named key optional =>
          refine h.1.bind fun e he => ih (fun p hp => ?_) hdynamic h.2
          rcases Property.mem_insert hp with rfl | hp
          · exact he
          · exact hproperties p hp
      | dynamic =>
          refine h.1.bind fun e he => ih hproperties ?_ h.2
          rintro _ ⟨rfl⟩
          exact he

theorem upto_step {generic : Option (List Char)} {find : String → Action σ (Option Identity)}
    {forms : Forms} {inside braces : List Char → Action σ Expr} {tokens : Except Error Tokens}
    (hn : 0 < n) (hinside : ∀ text, Upto n (inside text))
    (hbraces : ∀ text, Upto (n + 1) (braces text)) :
    Upto (n + 1) (step generic find forms inside braces tokens) := by
  have hleaf : ∀ e : Expr, e.height = 1 → Upto (n + 1) (pure e : Action σ Expr) :=
    fun e he => .pure (by omega)
  have htexts : ∀ texts : List (List Char), ∀ x ∈ texts.map inside, Upto n x := by
    intro texts x hx
    obtain ⟨text, -, rfl⟩ := List.mem_map.1 hx
    exact hinside text
  match tokens with
  | .error e => exact .throw e
  | .ok ⟨items, some joiner⟩ =>
      exact (gives_inOrder (htexts items)).bind fun es hes =>
        .pure (Nat.succ_le_succ (Expr.heightOfMembers_le hes))
  | .ok ⟨[token], none⟩ =>
      rw [step]
      split
      · exact .throw _
      next element _ => exact (hinside element).bind fun e he => .pure (Nat.succ_le_succ he)
      next text _ => exact fun s e he => Nat.le_succ_of_le (hinside text s e he)
      next text _ => exact hbraces text
      · exact hleaf _ rfl
      · exact hleaf _ rfl
      · exact hleaf _ rfl
      next name _ =>
        refine (Action.Gives.any (find name)).bind fun found _ => ?_
        cases found <;> exact hleaf _ rfl
      next name arguments _ =>
        exact (Action.Gives.any (find name)).bind fun found _ =>
          upto_applied found _ hn (htexts arguments)
      · exact hleaf _ rfl
  | .ok ⟨[], none⟩ => exact hleaf _ rfl
  | .ok ⟨_ :: _ :: _, none⟩ => exact hleaf _ rfl

theorem upto_ofLevel (generic : Option (List Char)) (scope : Scope σ) (n : Nat)
    (tokens : Except Error Tokens) :
    Upto (n + 1) ((Term.ofLevel generic n tokens).resolve scope) := by
  induction n using Nat.strongRecOn generalizing tokens with
  | ind n ih =>
      cases n with
      | zero =>
          rw [resolve_ofLevel_zero]
          exact .throw _
      | succ n =>
          rw [resolve_ofLevel_succ]
          refine upto_step (Nat.succ_pos n) (fun text => ih n (Nat.lt_succ_self n) _) fun text => ?_
          cases n with
          | zero => exact .throw _
          | succ n =>
              refine upto_object _ (by simp) (by simp) fun entry hentry => ?_
              obtain ⟨entry, -, rfl⟩ := List.mem_map.1 hentry
              exact fun s e he => Nat.le_succ_of_le (ih n (by omega) _ s e he)

/-! ## The limit -/

def parseFresh (limit : Option Nat) (generic : Option (List Char)) (scope : Scope σ) :
    List (List Char) → σ → List (Except Error (Expr × Nat)) × σ
  | [], s => ([], s)
  | text :: texts, s =>
      let (answer, r) := (parse limit generic scope text).eval ⟨0, s⟩
      let (answers, s) := parseFresh limit generic scope texts r.names
      (answer :: answers, s)

variable {generic : Option (List Char)} {scope : Scope σ}

theorem eval_parse {limit : Option Nat} {n : Nat} {text : List Char} {r : Reading σ}
    (hn : Leaves limit r.depth n (Tokens.sizeOf (Tokens.take text).1)) :
    (parse limit generic scope text).eval r =
      ((((Term.ofLevel generic n (Tokens.take text).1).resolve scope).eval r.names).1.map
          fun e => (e, Text.offsetOf text (Tokens.take text).2),
        ⟨r.depth,
          (((Term.ofLevel generic n (Tokens.take text).1).resolve scope).eval r.names).2⟩) := by
  have hcounts := level_counts generic scope n r.depth _ hn r.names
  rcases heval : ((Term.ofLevel generic n (Tokens.take text).1).resolve scope).eval r.names
    with ⟨e | e, s⟩
  · rw [heval] at hcounts
    exact Action.eval_bind_error hcounts
  · rw [heval] at hcounts
    exact Action.eval_bind_ok hcounts

theorem parseEach_eq (limit : Nat) (texts : List (List Char)) (s : σ) :
    parseEach (some limit) generic scope texts ⟨0, s⟩ =
      ((parseFresh (some limit) generic scope texts s).1,
        ⟨0, (parseFresh (some limit) generic scope texts s).2⟩) := by
  induction texts generalizing s with
  | nil => rfl
  | cons text texts ih =>
      have hn : Leaves (some limit) (⟨0, s⟩ : Reading σ).depth limit
        (Tokens.sizeOf (Tokens.take text).1) := rfl
      rcases heval : (parse (some limit) generic scope text).eval ⟨0, s⟩ with ⟨answer, depth, names⟩
      obtain rfl : depth = 0 :=
        (congrArg (·.2.depth) heval).symm.trans (congrArg (·.2.depth) (eval_parse hn))
      have hrun : (parse (some limit) generic scope text).run.run ⟨0, s⟩ = (answer, ⟨0, names⟩) :=
        heval
      simp only [parseEach, parseFresh, hrun, heval, ih]

theorem eval_parse_new (text : List Char) (s : σ) :
    (parse (some maxNesting) generic scope text).eval ⟨0, s⟩ =
      ((((Term.take generic text).1.resolve scope).eval s).1.map
          fun e => (e, Text.offsetOf text (Term.take generic text).2),
        ⟨0, (((Term.take generic text).1.resolve scope).eval s).2⟩) :=
  eval_parse (r := ⟨0, s⟩) (by simp [Leaves])

theorem gaveUp_or_unlimited (text : List Char) (r : Reading σ) :
    ((parse (some maxNesting) generic scope text).eval r).1 = .error .nestingTooDeep ∨
      (parse (some maxNesting) generic scope text).eval r =
        (parse none generic scope text).eval r := by
  let enough := max (maxNesting - r.depth) (Tokens.sizeOf (Tokens.take text).1 + 1)
  have hfree : Leaves none r.depth enough (Tokens.sizeOf (Tokens.take text).1) :=
    Nat.lt_of_lt_of_le (Nat.lt_succ_self _) (Nat.le_max_right ..)
  have hlimited : Leaves (some maxNesting) r.depth (maxNesting - r.depth)
    (Tokens.sizeOf (Tokens.take text).1) := rfl
  have hfollows := follows_ofLevel generic scope (n := maxNesting - r.depth) (m := enough)
    (Nat.le_max_left ..) (Tokens.take text).1 r.names
  rw [eval_parse hfree, eval_parse hlimited]
  generalize ((Term.ofLevel generic (maxNesting - r.depth) (Tokens.take text).1).resolve scope).eval
    r.names = limited at hfollows ⊢
  generalize ((Term.ofLevel generic enough (Tokens.take text).1).resolve scope).eval
    r.names = unlimited at hfollows ⊢
  cases hfollows with
  | gaveUp he => exact .inl (congrArg Except.error he)
  | failed he => exact .inr (by rw [he])
  | done => exact .inr rfl

/--
The reader gives up, or it does what it does without a limit.  No expression that it gives is higher
than the limit and one.  It has as many levels around it afterwards as before, whatever happens, so
that it answers one text after another as new readers would; and a new reader gives what the term
of the text is resolved to.
-/
theorem parse_within_limit (generic : Option (List Char)) (scope : Scope σ) (text : List Char)
    (r : Reading σ) :
    let run := (parse (some maxNesting) generic scope text).eval r
    (run.1 = .error .nestingTooDeep ∨ run = (parse none generic scope text).eval r) ∧
      (∀ e consumed, run.1 = .ok (e, consumed) → e.height ≤ 257) ∧
      run.2.depth = r.depth ∧
      (∀ texts s, parseEach (some maxNesting) generic scope texts ⟨0, s⟩ =
        ((parseFresh (some maxNesting) generic scope texts s).1,
          ⟨0, (parseFresh (some maxNesting) generic scope texts s).2⟩)) ∧
      ∀ s, (parse (some maxNesting) generic scope text).eval ⟨0, s⟩ =
        ((((Term.take generic text).1.resolve scope).eval s).1.map
            fun e => (e, Text.offsetOf text (Term.take generic text).2),
          ⟨0, (((Term.take generic text).1.resolve scope).eval s).2⟩) := by
  intro run
  have hlimited : Leaves (some maxNesting) r.depth (maxNesting - r.depth)
    (Tokens.sizeOf (Tokens.take text).1) := rfl
  have hrun : run = _ := eval_parse hlimited
  refine ⟨gaveUp_or_unlimited text r, fun e consumed he => ?_, congrArg (·.2.depth) hrun,
    fun texts s => parseEach_eq maxNesting texts s, fun s => eval_parse_new text s⟩
  rw [hrun] at he
  obtain ⟨e', he', hpair⟩ := Object.map_ok he
  obtain ⟨rfl, -⟩ := Prod.mk.inj hpair
  have hheight := upto_ofLevel generic scope (maxNesting - r.depth) (Tokens.take text).1 _ _ he'
  have hlimit : maxNesting = 256 := rfl
  omega

theorem parse_within_limit_object : ∃ e,
    ((parse (some maxNesting) none .empty
      "\x7b a?: (string)[]; b: Promise<T, U> \x7d".toList).eval ⟨0, ()⟩).1 = .ok (e, 36) ∧
      e.display = "\x7b a?: string[]; b: unknown; \x7d" ∧ e.height ≤ 257 := by
  have hrun : (((parse (some maxNesting) none .empty
      "\x7b a?: (string)[]; b: Promise<T, U> \x7d".toList).eval ⟨0, ()⟩).1.toOption.map
        fun p => (p.1.display, p.2)) = some ("\x7b a?: string[]; b: unknown; \x7d", 36) := by
    decide +kernel
  obtain ⟨⟨e, consumed⟩, he, hpair⟩ := Option.map_eq_some_iff.1 hrun
  obtain ⟨hdisplay, rfl⟩ := Prod.mk.inj hpair
  have hparse := eq_ok_of_toOption he
  exact ⟨e, hparse, hdisplay, (parse_within_limit _ _ _ _).2.1 e _ hparse⟩

end Reading

end Typings
