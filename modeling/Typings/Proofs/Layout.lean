import Typings.Proofs.NestingLimit
import Typings.Proofs.Shapes
import Typings.Proofs.SqueezedScan

/-!
# Layout does not matter

A text without quotes and the same text with its blanks squeezed are read alike.
-/

namespace Typings

open Text (squeeze)
open Typings.Span (Unquoted)

/-! ## Tokens -/

namespace Decimal

variable {s : List Char}

theorem not_blank_of_isDigit {c : Char} (h : c.isDigit = true) : Text.isBlank c = false := by
  have hword : Text.isWord c = true := by simp [Text.isWord, Char.isAlphanum, h]
  exact Text.isBlank_of_isWord hword

theorem word_of_readExponent? {n : Int} (h : readExponent? s = some n) :
    ∀ c ∈ s, Text.isBlank c = false := by
  unfold readExponent? at h
  split at h
  · simp
  next c t =>
    split at h
    next he =>
      have hc : Text.isBlank c = false := by
        simp only [Bool.or_eq_true, beq_iff_eq] at he
        rcases he with rfl | rfl <;> rfl
      split at h
      next negative digits hsign =>
        split at h
        · cases h
        next hdigits =>
          simp only [Bool.or_eq_true, Bool.not_eq_true', not_or, Bool.not_eq_false] at hdigits
          have hword : ∀ d ∈ digits, Text.isBlank d = false := fun d hd =>
            not_blank_of_isDigit (List.all_eq_true.1 hdigits.2 d hd)
          refine List.forall_mem_cons.2 ⟨hc, ?_⟩
          split at hsign <;> obtain ⟨-, rfl⟩ := Prod.mk.inj hsign
          · exact List.forall_mem_cons.2 ⟨rfl, hword⟩
          · exact List.forall_mem_cons.2 ⟨rfl, hword⟩
          · exact hword
    · cases h

theorem word_of_readUnsigned? {negative : Bool} {n : Binary64}
    (h : readUnsigned? negative s = some n) : ∀ c ∈ s, Text.isBlank c = false := by
  have hdigits : ∀ (t : List Char) (c : Char), c ∈ t.takeWhile Char.isDigit →
      Text.isBlank c = false := fun t c hc => not_blank_of_isDigit (List.mem_takeWhile_imp hc)
  rw [← List.takeWhile_append_dropWhile (p := Char.isDigit) (l := s), List.forall_mem_append]
  refine ⟨hdigits s, ?_⟩
  unfold readUnsigned? at h
  dsimp only at h
  split at h
  next rest hpoint =>
    split at h
    · cases h
    obtain ⟨exponent, hexponent, -⟩ := Option.map_eq_some_iff.1 h
    rw [hpoint, ← List.takeWhile_append_dropWhile (p := Char.isDigit) (l := rest),
      List.forall_mem_cons, List.forall_mem_append]
    exact ⟨rfl, hdigits rest, word_of_readExponent? hexponent⟩
  · split at h
    · cases h
    obtain ⟨exponent, hexponent, -⟩ := Option.map_eq_some_iff.1 h
    exact word_of_readExponent? hexponent

theorem word_of_read? {n : Binary64} (h : read? s = some n) : ∀ c ∈ s, Text.isBlank c = false := by
  unfold read? at h
  split at h
  · exact List.forall_mem_cons.2 ⟨rfl, word_of_readUnsigned? h⟩
  · exact word_of_readUnsigned? h

end Decimal

namespace Term

def Shape.squeeze : Shape → Shape
  | .invalid cause => .invalid cause.squeeze
  | .array element => .array (Text.squeeze element)
  | .group inside => .group (Text.squeeze inside)
  | .object text => .object (Text.squeeze text)
  | .named name arguments => .named name (arguments.map (List.map Text.squeeze))
  | shape => shape

theorem arrayElement?_squeeze (token : List Char) :
    arrayElement? (squeeze token) = (arrayElement? token).map squeeze := by
  rcases h : arrayElement? token with _ | element
  · rw [Option.map_none, Option.eq_none_iff_forall_ne_some]
    intro element helement
    obtain ⟨htoken, hne⟩ := arrayElement?_eq_some_iff.1 helement
    have hbracket : squeeze token = element ++ ['['] ++ [']'] := by simpa using htoken
    obtain ⟨t, rfl, ht⟩ := Text.squeeze_eq_concat rfl hbracket
    obtain ⟨t, rfl, rfl⟩ := Text.squeeze_eq_concat rfl ht
    have hsome : arrayElement? (t ++ ['['] ++ [']']) = some t :=
      arrayElement?_eq_some_iff.2 ⟨by simp, fun ht => hne (by simp [ht])⟩
    rw [h] at hsome
    cases hsome
  · obtain ⟨rfl, hne⟩ := arrayElement?_eq_some_iff.1 h
    refine arrayElement?_eq_some_iff.2 ⟨?_, by simpa using hne⟩
    rw [Text.squeeze_append_cons rfl]
    rfl

theorem spanShape_squeeze {token : List Char} (hs : Unquoted token)
    (h : Span.take? token = .ok (some (token, []))) :
    spanShape (squeeze token) = (spanShape token).squeeze := by
  have hinner := Span.inner_squeeze hs h
  obtain ⟨opening, body, closing, rfl, hopening, -⟩ := Span.ends_of_take? hs h
  have hquote := hs opening (by simp)
  rw [List.cons_append] at hinner ⊢
  rw [Text.squeeze_cons hopening] at hinner ⊢
  rw [spanShape_eq hquote, spanShape_eq hquote, hinner]
  split
  · rfl
  split
  · exact congrArg Shape.object (Text.squeeze_cons hopening _).symm
  · rfl

theorem nameShape_squeeze {token : List Char} (hs : Unquoted token) :
    nameShape (squeeze token) = (nameShape token).squeeze := by
  rw [nameShape_eq, nameShape_eq, Text.takeName?_squeeze]
  rcases hname : Text.takeName? token with _ | ⟨name, rest⟩
  · rfl
  have hrest := hs.suffix (Text.takeName?_suffix hname)
  simp only [Option.map_some, Text.squeeze_eq_nil_iff, Span.take?_squeeze hrest]
  split
  · rfl
  rcases htake : Span.take? rest with e | _ | ⟨span, behind⟩
  · rfl
  · rfl
  have hinside : Unquoted (Span.inner span) :=
    hrest.sublist ((Span.inner_sublist span).trans
      (Span.take?_append htake ▸ List.sublist_append_left ..))
  simp only [squeezed_ok, Option.map_some, Text.squeeze_eq_nil_iff,
    Text.head?_squeeze_eq_some_iff (c := '<') rfl, Span.inner_squeeze hrest htake,
    Span.arguments_squeeze hinside]
  split
  · cases Span.arguments (Span.inner span) <;> rfl
  · rfl

theorem wordShape_of_blank {generic : Option (List Char)} {token : List Char}
    (hgeneric : ∀ g ∈ generic, ∀ c ∈ g, Text.isBlank c = false)
    (h : ∃ c ∈ token, Text.isBlank c = true) : wordShape generic token = nameShape token := by
  have hword : ∀ word : List Char, (∀ c ∈ word, Text.isBlank c = false) → token ≠ word := by
    rintro word hword rfl
    obtain ⟨c, hc, hblank⟩ := h
    simp [hword c hc] at hblank
  have hread : Decimal.read? token = none := by
    cases hn : Decimal.read? token with
    | none => rfl
    | some n => exact absurd rfl (hword token (Decimal.word_of_read? hn))
  exact wordShape_eq_nameShape
    (fun kind => hword _ (Text.isBlank_of_isIdentifier (by cases kind <;> rfl)))
    (hword _ (Text.isBlank_of_isIdentifier rfl)) (hword _ (Text.isBlank_of_isIdentifier rfl))
    (.inr hread) fun hg => hword token (hgeneric token hg) rfl

theorem wordShape_squeeze {generic : Option (List Char)} {token : List Char}
    (hgeneric : ∀ g ∈ generic, ∀ c ∈ g, Text.isBlank c = false) (hs : Unquoted token) :
    wordShape generic (squeeze token) = (wordShape generic token).squeeze := by
  by_cases h : ∃ c ∈ token, Text.isBlank c = true
  · rw [wordShape_of_blank hgeneric h,
      wordShape_of_blank hgeneric (Text.exists_blank_squeeze h), nameShape_squeeze hs]
  · have hself : squeeze token = token := Text.squeeze_eq_self fun c hc => by
      rw [← Bool.not_eq_true]
      exact fun hblank => h ⟨c, hc, hblank⟩
    have hname := nameShape_squeeze hs
    rw [hself] at hname ⊢
    unfold wordShape
    split
    · rfl
    split
    · rfl
    split
    · rfl
    · exact hname

theorem shape_squeeze {generic : Option (List Char)} {token : List Char}
    (hgeneric : ∀ g ∈ generic, ∀ c ∈ g, Text.isBlank c = false) (hs : Unquoted token) :
    shape generic (squeeze token) = (shape generic token).squeeze := by
  rw [shape_eq, shape_eq, arrayElement?_squeeze, Span.take?_squeeze hs,
    wordShape_squeeze hgeneric hs]
  rcases arrayElement? token with _ | element
  · rcases htake : Span.take? token with e | _ | ⟨span, rest⟩
    · rfl
    · rfl
    · simp only [Option.map_none, Option.map_some, squeezed_ok, Text.squeeze_eq_nil_iff]
      split
      next hrest =>
        subst hrest
        obtain rfl : span = token := by simpa using Span.take?_append htake
        exact spanShape_squeeze hs htake
      · rfl
  · rfl

end Term

/-! ## Levels -/

def Plain (tokens : Except Error Tokens) : Prop :=
  ∀ t, tokens = .ok t → ∀ item ∈ t.items, Unquoted item

theorem plain_take {s : List Char} (hs : Unquoted s) : Plain (Tokens.take s).1 := by
  intro t ht item hitem c hc
  rw [← Bool.not_eq_true]
  intro hquote
  have hseparator : Tokens.isSeparator c = false := by
    simp only [Span.isQuote, Bool.or_eq_true, beq_iff_eq] at hquote
    rcases hquote with rfl | rfl <;> rfl
  have hcount := Tokens.count_take hseparator (Prod.ext ht rfl : Tokens.take s = (.ok t, _))
  have habsent : s.count c = 0 := List.count_eq_zero.2 fun h => by simp [hs c h] at hquote
  have hpresent : 0 < t.items.flatten.count c :=
    List.count_pos_iff.2 (List.mem_flatten_of_mem hitem hc)
  omega

theorem plain_scanEntries (start : List Char) {s : List Char} (hs : Unquoted s) :
    ∀ entry ∈ (Object.scanEntries start s).entries, Plain entry.value := by
  have hfront : ∀ {s c tail}, Unquoted s → Text.skipBlanks s = c :: tail → Unquoted (c :: tail) :=
    fun hs hblanks => hblanks ▸ hs.suffix (Text.skipBlanks_suffix _)
  fun_induction Object.scanEntries start s with
  | case1 => simp
  | case2 => simp
  | case3 s c tail hblanks hlt hclose hterm ih => exact ih (hfront hs hblanks).tail
  | case4 => simp
  | case5 s c tail hblanks hlt hclose hterm slot rest hhead e after htake =>
      rintro _ (_ | ⟨_, ⟨⟩⟩)
      rintro t ⟨⟩
  | case6 s c tail hblanks hlt hclose hterm slot rest hhead value after htake hafter more ih =>
      have hrest := (hfront hs hblanks).suffix (Object.head_suffix hhead)
      have hvalue := plain_take hrest
      have hstop := Tokens.take_suffix rest
      rw [htake] at hvalue hstop
      exact List.forall_mem_cons.2 ⟨hvalue, ih (hrest.suffix hstop)⟩

theorem plain_scan {s : List Char} (hs : Unquoted s) :
    ∀ entry ∈ (Object.scan s).entries, Plain entry.value := by
  unfold Object.scan
  split
  · simp
  next h => exact plain_scanEntries s (hs.suffix (Text.eat?_suffix h))

namespace Reading

variable {σ : Type} {generic : Option (List Char)}

section Congruence

variable {E : Error → Error → Prop} {R : ∀ {α : Type}, Action σ α → Action σ α → Prop}

theorem step_squeeze (hR : Action.Compositional E R) (hE : ∀ e, E e e.squeeze)
    (hgeneric : ∀ g ∈ generic, ∀ c ∈ g, Text.isBlank c = false)
    {find : String → Action σ (Option Identity)} (hfind : ∀ name, R (find name) (find name))
    (forms : Forms) {inside braces : List Char → Action σ Expr} {tokens : Except Error Tokens}
    (htokens : Plain tokens)
    (hinside : ∀ text, Unquoted text → R (inside text) (inside (squeeze text)))
    (hbraces : ∀ text, Unquoted text → R (braces text) (braces (squeeze text))) :
    R (step generic find forms inside braces tokens)
      (step generic find forms inside braces (squeezed Tokens.squeeze tokens)) := by
  match tokens with
  | .error e => exact hR.throw (hE e)
  | .ok ⟨items, some joiner⟩ =>
      simp only [squeezed_ok, Tokens.squeeze, step, List.map_map]
      refine hR.bind (inOrder_congr hR fun item hitem => ?_) fun _ => hR.pure _
      exact hinside item (htokens _ rfl item hitem)
  | .ok ⟨[token], none⟩ =>
      have htoken : Unquoted token := htokens _ rfl token (by simp)
      have htext : ∀ {shape : Term.Shape}, Term.shape generic token = shape →
          ∀ text ∈ shape.texts, Unquoted text :=
        fun hshape text htext =>
          htoken.sublist (Term.shape_texts generic token text (hshape ▸ htext)).1
      simp only [squeezed_ok, Tokens.squeeze, List.map_cons, List.map_nil, step,
        Term.shape_squeeze hgeneric htoken]
      cases hshape : Term.shape generic token with
      | invalid e => exact hR.throw (hE e)
      | array element =>
          exact hR.bind (hinside element (htext hshape element (by simp [Term.Shape.texts])))
            fun _ => hR.pure _
      | group text => exact hinside text (htext hshape text (by simp [Term.Shape.texts]))
      | object text =>
          obtain rfl := (Term.eq_of_shape_object hshape).1
          exact hbraces text htoken
      | literal value => exact hR.pure _
      | primitive kind => exact hR.pure _
      | generic => exact hR.pure _
      | named name arguments =>
          cases arguments with
          | none =>
              refine hR.bind (hfind name) fun found => ?_
              cases found <;> exact hR.pure _
          | some arguments =>
              refine hR.bind (hfind name) fun found => ?_
              simp only [List.map_map]
              exact applied_congr hR found _ fun text h => hinside text (htext hshape text h)
      | unknown => exact hR.pure _
  | .ok ⟨[], none⟩ => exact hR.pure _
  | .ok ⟨_ :: _ :: _, none⟩ => exact hR.pure _

theorem objectOf_squeeze (hR : Action.Compositional E R) (hE : ∀ e, E e e.squeeze)
    {value : Except Error Tokens → Action σ Expr}
    (hvalue : ∀ tokens, Plain tokens → R (value tokens) (value (squeezed Tokens.squeeze tokens)))
    {text : List Char} (htext : Unquoted text) :
    R (objectOf value text) (objectOf value (squeeze text)) := by
  have houtcome : SameOutcome E (Object.scan text).outcome
      (squeezed Text.squeeze (Object.scan text).outcome) := by
    cases (Object.scan text).outcome with
    | error e => exact .failed (hE e)
    | ok rest => exact .closed _ _
  unfold objectOf
  rw [Object.scan_squeeze htext]
  simp only [Object.Scan.squeeze, List.map_map]
  exact object_congr hR houtcome Object.Entry.slot
    (fun entry hentry => hvalue entry.value (plain_scan htext entry hentry)) _ _

end Congruence

def SameKind (e e' : Error) : Prop := e.kind = e'.kind

theorem ofLevel_squeeze (hgeneric : ∀ g ∈ generic, ∀ c ∈ g, Text.isBlank c = false)
    (scope : Scope σ) (n : Nat) {tokens : Except Error Tokens} (htokens : Plain tokens) :
    Action.Follows (fun _ => False) SameKind ((Term.ofLevel generic n tokens).resolve scope)
      ((Term.ofLevel generic n (squeezed Tokens.squeeze tokens)).resolve scope) := by
  have hR := Action.compositional_follows (σ := σ) (fun _ => False) SameKind
  have hE : ∀ e, SameKind e e.squeeze := fun e => e.kind_squeeze.symm
  have hsame : ∀ e, SameKind e e := fun _ => rfl
  induction n using Nat.strongRecOn generalizing tokens with
  | ind n ih =>
      cases n with
      | zero =>
          rw [resolve_ofLevel_zero, resolve_ofLevel_zero]
          exact .refl hsame _
      | succ n =>
          rw [resolve_ofLevel_succ, resolve_ofLevel_succ]
          refine step_squeeze hR hE hgeneric (fun name => .refl hsame _) scope.forms htokens
            (fun text htext => ?_) fun text htext => ?_
          · rw [Tokens.take_squeeze htext]
            exact ih n (Nat.lt_succ_self n) (plain_take htext)
          · cases n with
            | zero => exact .refl hsame _
            | succ n =>
                have hvalue := fun tokens (h : Plain tokens) => ih n (by omega) h
                exact objectOf_squeeze hR hE hvalue htext

/-- A text and the same text with its blanks squeezed are read with one outcome. -/
theorem parse_squeeze (hgeneric : ∀ g ∈ generic, Text.isIdentifier g = true) (scope : Scope σ)
    {text : List Char} (htext : Unquoted text) (r : Reading σ) :
    let run := (parse (some maxNesting) generic scope text).eval r
    let run' := (parse (some maxNesting) generic scope (squeeze text)).eval r
    run.2 = run'.2 ∧
      ((∃ e consumed consumed', run.1 = .ok (e, consumed) ∧ run'.1 = .ok (e, consumed')) ∨
        ∃ e e', run.1 = .error e ∧ run'.1 = .error e' ∧ e.kind = e'.kind) := by
  intro run run'
  have hword : ∀ g ∈ generic, ∀ c ∈ g, Text.isBlank c = false :=
    fun g hg => Text.isBlank_of_isIdentifier (hgeneric g hg)
  have hsame := ofLevel_squeeze hword scope (maxNesting - r.depth) (plain_take htext) r.names
  have hrun : run = _ := eval_parse (n := maxNesting - r.depth) rfl
  have hrun' : run' = _ := eval_parse (n := maxNesting - r.depth) rfl
  rw [Tokens.take_squeeze htext] at hrun'
  rw [hrun, hrun']
  generalize ((Term.ofLevel generic (maxNesting - r.depth) (Tokens.take text).1).resolve scope).eval
    r.names = ended at hsame ⊢
  generalize ((Term.ofLevel generic (maxNesting - r.depth)
    (squeezed Tokens.squeeze (Tokens.take text).1)).resolve scope).eval
    r.names = ended' at hsame ⊢
  cases hsame with
  | gaveUp he => exact he.elim
  | failed he => exact ⟨rfl, .inr ⟨_, _, rfl, rfl, he⟩⟩
  | done e s => exact ⟨rfl, .inl ⟨e, _, _, rfl, rfl⟩⟩

def spaciousObject : List Char :=
  "\x7b  readonly\n  a? : T\t|\n  string ;\r\n  b(x:  any) : Promise<  T > \x7d".toList

theorem parse_squeeze_object : ∃ e consumed consumed',
    e.display = "\x7b a?: <generic> | string; b: Promise<<generic>>; \x7d" ∧
      ((parse (some maxNesting) (some ['T']) .empty spaciousObject).eval ⟨0, ()⟩).1 =
        .ok (e, consumed) ∧
      ((parse (some maxNesting) (some ['T']) .empty (squeeze spaciousObject)).eval ⟨0, ()⟩).1 =
        .ok (e, consumed') := by
  have hrun : ((parse (some maxNesting) (some ['T']) .empty spaciousObject).eval
      ⟨0, ()⟩).1.toOption.map (fun p => p.1.display) =
        some "\x7b a?: <generic> | string; b: Promise<<generic>>; \x7d" := by
    decide +kernel
  obtain ⟨⟨e, consumed⟩, he, hdisplay⟩ := Option.map_eq_some_iff.1 hrun
  have hparse := eq_ok_of_toOption he
  have hgeneric : ∀ g ∈ some ['T'], Text.isIdentifier g = true := by
    rintro _ ⟨⟩
    rfl
  have hunquoted : Unquoted spaciousObject := by decide +kernel
  rcases (parse_squeeze hgeneric Scope.empty hunquoted ⟨0, ()⟩).2 with
    ⟨e', n, n', h, h'⟩ | ⟨e', _, h, -, -⟩
  · rw [hparse] at h
    obtain ⟨rfl, rfl⟩ := Prod.mk.inj (Except.ok.inj h)
    exact ⟨e, consumed, n', hdisplay, hparse, h'⟩
  · rw [hparse] at h
    cases h

end Reading

end Typings
