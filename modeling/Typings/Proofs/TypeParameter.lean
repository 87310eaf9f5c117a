import Typings.Expr.Display
import Typings.Proofs.TokenText
import Typings.Proofs.Upkeep

/-!
# The type parameter of a declaration

A type parameter may have a constraint or a default, which nothing reads.  The list of parameters is
found by the count of angle brackets, and this count takes the end of an arrow for a closer: a
constraint without arrows is passed over, and one with an arrow ends the list inside itself.
-/

namespace Typings

/-! ## Texts in which brackets nest -/

namespace Span

/--
The text has no quotes, every bracket in it is closed by its own kind and in order, and there is no
comma outside of brackets, unless the text itself stands inside some.  The end of an arrow is not a
bracket; the number is that of the arrows.
-/
inductive Nests : Bool → Nat → List Char → Prop
  | nil {inside : Bool} : Nests inside 0 []
  | plain {inside : Bool} {arrows : Nat} {c : Char} {s : List Char} (hopener : isOpener c = false)
      (hcloser : Tokens.isCloser c = false) (hcomma : c = ',' → inside = true)
      (hs : Nests inside arrows s) : Nests inside arrows (c :: s)
  | arrow {inside : Bool} {arrows : Nat} {s : List Char} (hs : Nests inside arrows s) :
      Nests inside (arrows + 1) ('=' :: '>' :: s)
  | group {inside : Bool} {arrows more : Nat} {opening closing : Char} {body rest : List Char}
      (h : closer? opening = some closing) (hquote : isQuote opening = false)
      (hbody : Nests true arrows body) (hend : closing = '>' → body.getLast? ≠ some '=')
      (hrest : Nests inside more rest) :
      Nests inside (arrows + more) (opening :: body ++ closing :: rest)

variable {inside : Bool} {arrows : Nat} {s : List Char}

theorem Nests.neutral (hs : Nests inside arrows s) (harrows : arrows = 0) : Neutral s := by
  induction hs with
  | nil => exact .nil
  | @plain inside arrows c s hopener hcloser hcomma _ ih =>
      have hc : Neutral [c] := neutral_of_plain (by simp [hopener, hcloser])
      exact hc.append (ih harrows)
  | arrow => exact absurd harrows (Nat.succ_ne_zero _)
  | group h hquote _ _ _ ihbody ihrest =>
      rw [List.append_cons]
      obtain ⟨hbody, hrest⟩ := Nat.add_eq_zero_iff.1 harrows
      exact ((ihbody hbody).enclosed h hquote).append (ihrest hrest)

/-- Every arrow is one closing angle bracket too many. -/
theorem Nests.count (hs : Nests inside arrows s) : s.count '<' + arrows = s.count '>' := by
  induction hs with
  | nil => rfl
  | @plain inside arrows c s hopener hcloser hcomma _ ih =>
      have hleft : c ≠ '<' := by
        rintro rfl
        cases hopener
      have hright : c ≠ '>' := by
        rintro rfl
        cases hcloser
      rwa [List.count_cons_of_ne hleft, List.count_cons_of_ne hright]
  | arrow _ ih =>
      rw [List.count_cons_of_ne (by decide), List.count_cons_of_ne (by decide),
        List.count_cons_of_ne (by decide), List.count_cons_self]
      omega
  | group h hquote _ _ _ ihbody ihrest =>
      obtain ⟨rfl, rfl⟩ | ⟨rfl, rfl⟩ | ⟨rfl, rfl⟩ | ⟨rfl, rfl⟩ := closer?_cases h hquote
      all_goals
        simp [List.count_append]
        omega

theorem Nests.takeArgument (hs : Nests inside arrows s) (hinside : inside = false)
    (harrows : arrows = 0) (rest : List Char) :
    takeArgument (s ++ rest) = (takeArgument rest).map fun a => (s ++ a.1, a.2) := by
  induction hs with
  | nil => cases h : Span.takeArgument rest <;> simp [h, Except.map]
  | @plain inside arrows c s hopener hcloser hcomma _ ih =>
      have hc : c ≠ ',' := fun hc => absurd (hinside.symm.trans (hcomma hc)) (by decide)
      have htake : take? (c :: (s ++ rest)) = .ok none := by
        have hnone : closer? c = none := by simpa [isOpener] using hopener
        simp only [take?, hnone]
      rw [List.cons_append, takeArgument_of_none hc htake, ih hinside harrows]
      cases Span.takeArgument rest <;> rfl
  | arrow => exact absurd harrows (Nat.succ_ne_zero _)
  | @group inside arrows more opening closing body groups h hquote hbody hend _ _ ih =>
      obtain ⟨hzero, hmore⟩ := Nat.add_eq_zero_iff.1 harrows
      have hcomma : opening ≠ ',' := by
        rintro rfl
        cases h
      have htake := take?_enclosed h hquote (hbody.neutral hzero) (groups ++ rest)
      rw [List.cons_append] at htake
      rw [show opening :: body ++ closing :: groups ++ rest =
        opening :: (body ++ closing :: (groups ++ rest)) by simp,
        takeArgument_of_some hcomma htake, ih hinside hmore]
      cases Span.takeArgument rest <;> simp [Except.map]

/-- The list of parameters that a text with arrows stands in ends at a closer inside the text. -/
theorem Nests.exists_end (hs : Nests inside arrows s) (harrows : 0 < arrows) :
    ∃ before behind, s = before ++ '>' :: behind ∧ nesting? '<' '>' 0 before = some 0 := by
  have hne : '<' ≠ '>' := by decide
  rcases hspan : takeBracketed? '<' '>' 0 s with _ | ⟨span, rest⟩
  · obtain ⟨depth, hdepth⟩ := Option.isSome_iff_exists.1 (takeBracketed?_eq_none_iff.1 hspan)
    have hclosers := count_nesting? hne hdepth
    have hcount := hs.count
    omega
  · obtain ⟨before, rfl, hbefore⟩ := nesting?_of_takeBracketed? hspan
    exact ⟨before, rest, by simp [← takeBracketed?_append hspan], hbefore⟩

end Span

/-! ## The name at the front of a parameter -/

namespace Text

variable {name rest : List Char}

theorem trim_append_of_name (h : isIdentifier name = true) (rest : List Char) :
    trim (name ++ rest) = name ++ trimEnd rest := by
  have hspace : ∀ c ∈ name, ¬ isSpace c = true := fun c hc => by
    simp [isSpace_of_isWord (isWord_of_isIdentifier h c hc)]
  have hstart : trimStart (name ++ rest) = name ++ rest := by
    obtain ⟨c, tail, rfl, -⟩ := exists_cons_of_isIdentifier h
    exact List.dropWhile_cons_of_neg (hspace c (List.mem_cons_self ..))
  have hend : name.reverse.dropWhile isSpace = name.reverse := by
    obtain ⟨c, tail, hreverse⟩ := List.exists_cons_of_ne_nil
      (List.reverse_ne_nil_iff.2 (ne_nil_of_isIdentifier h))
    rw [hreverse]
    exact List.dropWhile_cons_of_neg (hspace c (List.mem_reverse.1 (by simp [hreverse])))
  rw [trim, hstart, trimEnd, List.reverse_append, List.dropWhile_append, hend, trimEnd]
  split
  next hempty => rw [List.isEmpty_iff.1 hempty, List.reverse_reverse, List.reverse_nil,
    List.append_nil]
  next => rw [List.reverse_append, List.reverse_reverse]

theorem trimEnd_prefix (s : List Char) : trimEnd s <+: s := by
  simpa [trimEnd] using List.reverse_prefix.2 (List.dropWhile_suffix (l := s.reverse) isSpace)

theorem startsWord_of_prefix {s t : List Char} (h : s <+: t) (ht : startsWord t = false) :
    startsWord s = false := by
  obtain ⟨behind, rfl⟩ := h
  cases s with
  | nil => rfl
  | cons c s => exact ht

end Text

/-! ## Lists of one parameter -/

namespace Declaration

open Typings.Span (Nests Neutral)

section OneParameter

variable {name rest : List Char} (d : Declaration) (hname : Text.isIdentifier name = true)
  (hrest : Text.startsWord rest = false)
  (hsingle : Span.takeArgument (name ++ rest) = .ok (name ++ rest, none))

include hname hrest hsingle

theorem typeParameter_of_single : d.typeParameter (name ++ rest) = .ok (some name) := by
  have htrim := Text.trim_append_of_name hname rest
  have hword := Text.takeWord?_append_of_name hname
    (Text.startsWord_of_prefix (Text.trimEnd_prefix rest) hrest)
  have hone : Span.arguments (name ++ rest) = .ok [name ++ Text.trimEnd rest] := by
    rw [Span.arguments, Span.pieces_eq, hsingle]
    simp only [htrim]
    obtain ⟨c, tail, rfl, -⟩ := Text.exists_cons_of_isIdentifier hname
    rfl
  simp only [typeParameter, hone, hword]

theorem takeParameters_of_single (hnesting : Span.nesting? '<' '>' 0 (name ++ rest) = some 0)
    (behind : List Char) :
    d.takeParameters ('<' :: (name ++ rest) ++ '>' :: behind) = .ok (some name, behind) := by
  have hspan := Span.take?_of_nesting? (show Span.closer? '<' = some '>' from rfl) rfl hnesting
    behind
  have hinner : Span.inner ('<' :: (name ++ rest) ++ ['>']) = name ++ rest := by
    rw [Span.inner, List.cons_append, List.tail_cons, List.dropLast_concat]
  have hhead : (('<' :: (name ++ rest) ++ '>' :: behind).head? == some '<') = true := by simp
  rw [takeParameters, hhead, if_pos rfl, hspan]
  simp only [hinner, typeParameter_of_single d hname hrest hsingle]
  rfl

end OneParameter

def IsLead (lead : List Char) : Prop := lead = " extends ".toList ∨ lead = " = ".toList

section Constrained

variable {name lead constraint : List Char} (d : Declaration)
  (hname : Text.isIdentifier name = true)

include hname

theorem takeParameters_name (behind : List Char) :
    d.takeParameters ('<' :: name ++ '>' :: behind) = .ok (some name, behind) := by
  have hsingle := Span.takeArgument_plain (Span.plain_of_isIdentifier hname) []
  rw [Span.takeArgument_nil] at hsingle
  have hend : Text.startsWord [] = false := rfl
  have htake := d.takeParameters_of_single hname hend
    (hsingle.trans (by simp [Except.map]))
    (by simpa using Tokens.neutral_of_isIdentifier hname '<' '>' rfl rfl 0) behind
  rwa [List.append_nil] at htake

variable (hlead : IsLead lead)

include hlead

theorem neutral_append_lead : Neutral (name ++ lead) := by
  refine (Tokens.neutral_of_isIdentifier hname).append (Span.neutral_of_plain ?_)
  obtain rfl | rfl := hlead <;> decide

theorem takeParameters_constraint (hconstraint : Nests false 0 constraint) (behind : List Char) :
    d.takeParameters ('<' :: name ++ lead ++ constraint ++ '>' :: behind) =
      .ok (some name, behind) := by
  have hplain : ∀ c ∈ name ++ lead, c ≠ ',' ∧ Span.closer? c = none := by
    have hall : lead.all (fun c => c ≠ ',' ∧ Span.closer? c = none) = true := by
      obtain rfl | rfl := hlead <;> rfl
    refine List.forall_mem_append.2 ⟨Span.plain_of_isIdentifier hname, fun c hc => ?_⟩
    simpa using List.all_eq_true.1 hall c hc
  have hsingle : Span.takeArgument (name ++ (lead ++ constraint)) =
      .ok (name ++ (lead ++ constraint), none) := by
    have hargument := hconstraint.takeArgument rfl rfl []
    rw [Span.takeArgument_nil, List.append_nil] at hargument
    rw [← List.append_assoc, Span.takeArgument_plain hplain, hargument]
    simp [Except.map]
  have hneutral := (neutral_append_lead hname hlead).append (hconstraint.neutral rfl)
  have hstart : Text.startsWord (lead ++ constraint) = false := by
    obtain rfl | rfl := hlead <;> rfl
  have htake := d.takeParameters_of_single hname hstart hsingle
    (by simpa using hneutral '<' '>' rfl rfl 0) behind
  simpa using htake

theorem take?_constraint {arrows : Nat} (hconstraint : Nests false arrows constraint)
    (harrows : 0 < arrows) (behind : List Char) :
    ∃ before after, constraint = before ++ '>' :: after ∧
      Span.take? ('<' :: name ++ lead ++ constraint ++ '>' :: behind) =
        .ok (some ('<' :: name ++ lead ++ before ++ ['>'], after ++ '>' :: behind)) := by
  obtain ⟨before, after, rfl, hbefore⟩ := hconstraint.exists_end harrows
  have hnesting : Span.nesting? '<' '>' 0 (name ++ lead ++ before) = some 0 := by
    rw [Span.nesting?_append, neutral_append_lead hname hlead '<' '>' rfl rfl 0, Option.bind_some,
      hbefore]
  have hspan := Span.take?_of_nesting? (show Span.closer? '<' = some '>' from rfl) rfl hnesting
    (after ++ '>' :: behind)
  exact ⟨before, after, rfl, by simpa using hspan⟩

end Constrained

/-! ## Errors of one kind -/

variable {α β : Type}

theorem mapError_bind {x y : Except Error α} {f g : α → Except Error β}
    (h : x.mapError Error.kind = y.mapError Error.kind)
    (hfg : ∀ a, x = .ok a → (f a).mapError Error.kind = (g a).mapError Error.kind) :
    (x >>= f).mapError Error.kind = (y >>= g).mapError Error.kind := by
  rcases x with e | a
  · rcases y with e' | b
    · exact congrArg Except.error (Except.error.inj h)
    · cases h
  · rcases y with e' | b
    · cases h
    · obtain rfl := Except.ok.inj h
      exact hfg a rfl

variable (d d' : Declaration)

theorem mapError_takeBase (s : List Char) :
    (d.takeBase s).mapError Error.kind = (d'.takeBase s).mapError Error.kind := by
  unfold takeBase
  rcases Text.takeName? s with _ | ⟨name, rest⟩
  · rfl
  · dsimp only
    split
    · rcases Span.take? rest with e | _ | ⟨span, behind⟩ <;> rfl
    · rfl

theorem takeBases_eq (s : List Char) :
    d.takeBases s = d.takeBase (Text.skipBlanks s) >>= fun p =>
      match Text.eat? ',' (Text.skipBlanks p.2) with
      | none => .ok ([p.1], Text.skipBlanks p.2)
      | some more => (d.takeBases more).map fun q => (p.1 :: q.1, q.2) := by
  rw [takeBases]
  split
  next h => simp only [h, bind, Except.bind]
  next base rest h =>
    split
    next hcomma => simp only [h, hcomma, bind, Except.bind]
    next more hcomma => simp only [h, hcomma, bind, Except.bind]

theorem mapError_takeBases (s : List Char) :
    (d.takeBases s).mapError Error.kind = (d'.takeBases s).mapError Error.kind := by
  induction hn : s.length using Nat.strongRecOn generalizing s with
  | ind n ih =>
      subst hn
      rw [takeBases_eq d, takeBases_eq d']
      refine mapError_bind (mapError_takeBase d d' _) fun ⟨base, rest⟩ hbase => ?_
      rcases hcomma : Text.eat? ',' (Text.skipBlanks rest) with _ | more
      · rfl
      · have hlt : more.length < s.length := by
          have hbehind := length_takeBase hbase
          have hblanks := Text.length_skipBlanks_le s
          have hrest := Text.length_skipBlanks_le rest
          have hmore := congrArg List.length (Text.eat?_eq_some_iff.1 hcomma)
          rw [List.length_cons] at hmore
          omega
        exact mapError_bind (f := fun q => .ok (base :: q.1, q.2)) (ih _ hlt more rfl)
          fun _ _ => rfl

theorem mapError_takeHeritage (keyword : String) (s : List Char) :
    (d.takeHeritage keyword s).mapError Error.kind =
      (d'.takeHeritage keyword s).mapError Error.kind := by
  unfold takeHeritage
  rcases Text.eatKeyword? keyword s with _ | rest
  · rfl
  · exact mapError_takeBases d d' rest

section SameParameters

variable {d d'} (hkind : d'.kind = d.kind)
  (hparameters : d'.takeParameters (Text.skipBlanks d'.body) =
    d.takeParameters (Text.skipBlanks d.body))

include hkind hparameters

theorem mapError_header : d'.header.mapError Error.kind = d.header.mapError Error.kind := by
  unfold header
  rw [hparameters, hkind]
  refine mapError_bind rfl fun ⟨generic, rest⟩ _ => ?_
  dsimp only
  split
  · refine mapError_bind (mapError_takeHeritage d' d _ _) fun ⟨extended, rest⟩ _ => ?_
    exact mapError_bind (mapError_takeHeritage d' d _ _) fun _ _ => rfl
  · rfl

theorem mapError_written : d'.written.mapError Error.kind = d.written.mapError Error.kind := by
  have hheader := mapError_header hkind hparameters
  unfold written
  rw [hkind]
  cases d.kind with
  | typeAlias =>
      refine mapError_bind hheader fun h _ => ?_
      split <;> rfl
  | interface => exact mapError_bind hheader fun _ _ => rfl
  | classType => exact mapError_bind hheader fun _ _ => rfl
  | enumeration => rfl

end SameParameters

end Declaration

/-! ## Types of declarations -/

namespace FileTree

open Query

variable (files : FileTree) (path : Path) {d d' : Declaration} {s s' : Store}

theorem eval_typeOf_of_error (h : d.parsed = none) {e : Error} (hwritten : d.written = .error e) :
    (files.typeOf path d).eval s = (.error (.inDeclaration d.identity e), s) := by
  rw [← typeOfBy_tableOf]
  refine eval_typeOfBy_of_none (r := .error e) h ?_
  rw [hwritten]
  exact eval_bind_error (eval_ofExcept _ s)

theorem eval_typeOf_of_ok (h : d.parsed = none) {w : Declaration.Written} {r : Except Error Expr}
    (hwritten : d.written = .ok w)
    (hresolve : Query.eval (w.resolve (files.scopeBy files.tableOf path)) s = (r, s')) :
    (files.typeOf path d).eval s = s'.endTyping path d r := by
  rw [← typeOfBy_tableOf]
  refine eval_typeOfBy_of_none h ?_
  rw [hwritten]
  exact (eval_bind_ok (eval_ofExcept _ s)).trans hresolve

theorem typeOf_alike (hidentity : d'.identity = d.identity) (hparsed : d'.parsed = d.parsed)
    (hwritten : d'.written.mapError Error.kind = d.written.mapError Error.kind) (s : Store) :
    ((files.typeOf path d').eval s).1.mapError Error.kind =
        ((files.typeOf path d).eval s).1.mapError Error.kind ∧
      ((files.typeOf path d').eval s).2 = ((files.typeOf path d).eval s).2 := by
  cases h : d.parsed with
  | some e =>
      rw [← typeOfBy_tableOf, eval_typeOfBy_of_some (hparsed.trans h), eval_typeOfBy_of_some h]
      exact ⟨rfl, rfl⟩
  | none =>
      have h' := hparsed.trans h
      rcases hd : d.written with e | w <;> rcases hd' : d'.written with e' | w' <;>
        rw [hd, hd'] at hwritten
      · rw [eval_typeOf_of_error files path h hd, eval_typeOf_of_error files path h' hd']
        exact ⟨congrArg Except.error (Except.error.inj hwritten), rfl⟩
      · cases hwritten
      · cases hwritten
      · obtain rfl := Except.ok.inj hwritten
        rcases hresolve : Query.eval (w'.resolve (files.scopeBy files.tableOf path)) s with ⟨r, s'⟩
        rw [eval_typeOf_of_ok files path h hd hresolve,
          eval_typeOf_of_ok files path h' hd' hresolve]
        cases r with
        | error e => exact ⟨rfl, rfl⟩
        | ok e => exact ⟨rfl, by simp only [Store.endTyping, Declaration.name, hidentity]⟩

/--
The constraint of a type parameter, or its default, has no influence on the type of a declaration if
there is no arrow in it: the type is the same as without, or the error is of the same kind, and so
is what is found out on the way.  If there is an arrow in it, the list of parameters ends inside it.
-/
theorem typeOf_constraint (d : Declaration) {name lead constraint : List Char} {arrows : Nat}
    (hname : Text.isIdentifier name = true) (hlead : Declaration.IsLead lead)
    (hconstraint : Span.Nests false arrows constraint) (behind : List Char) (s : Store) :
    let plain := { d with body := '<' :: name ++ '>' :: behind }
    let constrained := { d with body := '<' :: name ++ lead ++ constraint ++ '>' :: behind }
    (arrows = 0 →
      ((files.typeOf path constrained).eval s).1.mapError Error.kind =
          ((files.typeOf path plain).eval s).1.mapError Error.kind ∧
        ((files.typeOf path constrained).eval s).2 = ((files.typeOf path plain).eval s).2) ∧
    (0 < arrows → ∃ before after, constraint = before ++ '>' :: after ∧
      Span.take? constrained.body =
        .ok (some ('<' :: name ++ lead ++ before ++ ['>'], after ++ '>' :: behind))) := by
  intro plain constrained
  refine ⟨?_, fun harrows =>
    Declaration.take?_constraint hname hlead hconstraint harrows behind⟩
  rintro rfl
  have hparameters : constrained.takeParameters (Text.skipBlanks constrained.body) =
      plain.takeParameters (Text.skipBlanks plain.body) :=
    (constrained.takeParameters_constraint hname hlead hconstraint behind).trans
      (plain.takeParameters_name hname behind).symm
  have hwritten : constrained.written.mapError Error.kind = plain.written.mapError Error.kind :=
    Declaration.mapError_written rfl hparameters
  have hidentity : constrained.identity = plain.identity := rfl
  exact typeOf_alike files path hidentity rfl hwritten s

theorem typeOf_constraint_map :
    let files := FileTree.ofWorkingDirectory []
    let d : Declaration := ⟨⟨⟨"/a.d.ts"⟩, "X", false⟩, .typeAlias, [], true, 0, none⟩
    let s := Store.ofOptions .standard
    let constrained := { d with body := "<T extends Map<K, V>> = T;".toList }
    let plain := { d with body := "<T> = T;".toList }
    ((files.typeOf ⟨"/a.d.ts"⟩ constrained).eval s).1.mapError Error.kind =
        ((files.typeOf ⟨"/a.d.ts"⟩ plain).eval s).1.mapError Error.kind ∧
      ((files.typeOf ⟨"/a.d.ts"⟩ constrained).eval s).2 =
        ((files.typeOf ⟨"/a.d.ts"⟩ plain).eval s).2 := by
  intro files d s constrained plain
  have hbody : Span.Nests true 0 "K, V".toList :=
    .plain rfl rfl (by decide) <| .plain rfl rfl (fun _ => rfl) <| .plain rfl rfl (by decide) <|
      .plain rfl rfl (by decide) .nil
  have hgroup : Span.Nests false (0 + 0) ('<' :: "K, V".toList ++ '>' :: []) :=
    .group rfl rfl hbody (by decide) .nil
  have hconstraint : Span.Nests false 0 "Map<K, V>".toList :=
    .plain rfl rfl (by decide) <| .plain rfl rfl (by decide) <| .plain rfl rfl (by decide) hgroup
  exact (typeOf_constraint files ⟨"/a.d.ts"⟩ d (show Text.isIdentifier ['T'] = true from rfl)
    (.inl rfl) hconstraint " = T;".toList s).1 rfl

/-- A type parameter with an arrow in its constraint makes the declaration malformed. -/
theorem typeOf_arrow_ne_plain :
    let files := FileTree.ofWorkingDirectory []
    let d : Declaration := ⟨⟨⟨"/a.d.ts"⟩, "X", false⟩, .typeAlias, [], true, 0, none⟩
    let s := Store.ofOptions .standard
    let constrained := { d with body := "<T extends () => void> = T;".toList }
    let plain := { d with body := "<T> = T;".toList }
    ((files.typeOf ⟨"/a.d.ts"⟩ constrained).eval s).1.map Expr.display =
        .error (.inDeclaration d.identity
          (.malformedDeclaration "type X<T extends () => void> = T;".toList)) ∧
      ((files.typeOf ⟨"/a.d.ts"⟩ plain).eval s).1.map Expr.display = .ok "<generic>" := by
  decide +kernel

end FileTree

end Typings
