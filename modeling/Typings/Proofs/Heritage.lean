import Typings.Proofs.Location
import Typings.Proofs.TypeParameter

/-!
# The heritage of an interface

The header of an interface lists its bases between commas.  It is cut into exactly these bases and
the body behind them, and the type of the interface is the intersection of what each of the parts is
read as by itself: the body first, and then the bases in order.
-/

namespace Typings

/-! ## Names with dots -/

namespace Text

def dotted (words : List (List Char)) : List Char := ['.'].intercalate words

variable {words : List (List Char)} (hne : words ≠ [])
  (hwords : ∀ word ∈ words, isIdentifier word = true)

include hne hwords

theorem exists_cons_dotted : ∃ c tail, dotted words = c :: tail ∧ isWord c = true := by
  obtain ⟨word, more, rfl⟩ := List.exists_cons_of_ne_nil hne
  obtain ⟨c, tail, rfl, hc⟩ := exists_cons_of_isIdentifier (hwords _ List.mem_cons_self)
  rcases more with _ | ⟨next, more⟩
  · exact ⟨c, tail, List.intercalate_singleton, hc⟩
  · exact ⟨c, _, List.intercalate_cons_cons.trans (List.append_assoc ..), hc⟩

theorem nameTail_dotted {rest : List Char} (hrest : endsName rest = true) :
    nameTail (dotted words ++ rest) = (dotted words, rest) := by
  induction words with
  | nil => exact absurd rfl hne
  | cons word words ih =>
      obtain ⟨hword, hmore⟩ := List.forall_mem_cons.1 hwords
      have hchars := isWord_of_isIdentifier hword
      rcases words with _ | ⟨next, words⟩
      · rw [dotted, List.intercalate_singleton]
        exact nameTail_append_of_word hchars hrest
      · have htail := ih (List.cons_ne_nil _ _) hmore
        obtain ⟨c, tail, hc, hstart⟩ := exists_cons_dotted (List.cons_ne_nil next words) hmore
        have hdot : nameTail ('.' :: (dotted (next :: words) ++ rest)) =
            ('.' :: dotted (next :: words), rest) := by
          have hword : startsWord (dotted (next :: words) ++ rest) = true := by
            rw [hc]
            exact hstart
          rw [nameTail, hword, htail]
          rfl
        rw [dotted, List.intercalate_cons_cons, ← dotted, List.append_assoc, List.append_assoc,
          List.singleton_append, nameTail_word_append hchars, hdot]
        simp

theorem takeName?_dotted {rest : List Char} (hrest : endsName rest = true) :
    takeName? (dotted words ++ rest) = some (dotted words, rest) := by
  have hname := nameTail_dotted hne hwords hrest
  obtain ⟨c, tail, hc, hstart⟩ := exists_cons_dotted hne hwords
  have hminus : eat? '-' (dotted words ++ rest) = none := by
    simp [hc, eat?, ne_of_isWord hstart (d := '-') rfl]
  have hword : startsWord (dotted words ++ rest) = true := by
    rw [hc]
    exact hstart
  rw [takeName?_eq, hminus]
  simp only [hword, if_true, hname]

end Text

/-! ## Bases as they are written -/

namespace Declaration

/-- A name with dots, and directly behind it a list of arguments or nothing. -/
structure Base where
  words : List (List Char)
  arguments : List Char
  words_ne_nil : words ≠ []
  isIdentifier_of_mem : ∀ word ∈ words, Text.isIdentifier word = true
  delimited : arguments = [] ∨
    arguments.head? = some '<' ∧ Span.take? arguments = .ok (some (arguments, []))

def Base.text (base : Base) : List Char := Text.dotted base.words ++ base.arguments

structure SpacedBase extends Base where
  before : List Char
  behind : List Char
  isBlank_before : ∀ c ∈ before, Text.isBlank c = true
  isBlank_behind : ∀ c ∈ behind, Text.isBlank c = true

def SpacedBase.spaced (base : SpacedBase) : List Char := base.before ++ base.text ++ base.behind

def baseList (bases : List SpacedBase) : List Char := [','].intercalate (bases.map (·.spaced))

def interfaceText (parameter : Option (List Char)) (bases : List SpacedBase) (body : List Char) :
    List Char :=
  (parameter.elim [] fun name => '<' :: name ++ ['>']) ++ " extends ".toList ++ baseList bases ++
    body

/-! ## Reading bases -/

def endsBase (s : List Char) : Bool := Text.endsName s && s.head? != some '<'

variable (d : Declaration) {rest : List Char}

theorem takeBase_text (base : Base) (hrest : endsBase rest = true) :
    d.takeBase (base.text ++ rest) = .ok (base.text, rest) := by
  rw [endsBase, Bool.and_eq_true, bne_iff_ne] at hrest
  obtain ⟨hname, hopen⟩ := hrest
  have htake : Text.endsName (base.arguments ++ rest) = true →
      Text.takeName? (Text.dotted base.words ++ (base.arguments ++ rest)) =
        some (Text.dotted base.words, base.arguments ++ rest) :=
    Text.takeName?_dotted base.words_ne_nil base.isIdentifier_of_mem
  rw [takeBase, Base.text, List.append_assoc]
  obtain harguments | ⟨hfirst, hspan⟩ := base.delimited
  · rw [harguments, List.nil_append] at htake
    rw [harguments, List.nil_append, htake hname]
    simp [hopen]
  · have hhead : (base.arguments ++ rest).head? = some '<' := by
      rw [List.head?_append, hfirst]
      rfl
    have hends : Text.endsName (base.arguments ++ rest) = true := by
      rw [Text.endsName, hhead]
      rfl
    simp only [htake hends, hhead, beq_self_eq_true, if_true, Span.take?_append_behind hspan rest,
      List.nil_append]

theorem skipBlanks_append {blanks : List Char} (hblanks : ∀ c ∈ blanks, Text.isBlank c = true)
    {c : Char} (hc : Text.isBlank c = false) (s : List Char) :
    Text.skipBlanks (blanks ++ c :: s) = c :: s := by
  rw [Text.skipBlanks, List.dropWhile_append_of_pos hblanks,
    List.dropWhile_cons_of_neg (by simp [hc])]

theorem Base.skipBlanks_text (base : Base) {blanks : List Char}
    (hblanks : ∀ c ∈ blanks, Text.isBlank c = true) (rest : List Char) :
    Text.skipBlanks (blanks ++ (base.text ++ rest)) = base.text ++ rest := by
  obtain ⟨c, tail, hname, hc⟩ :=
    Text.exists_cons_dotted base.words_ne_nil base.isIdentifier_of_mem
  rw [Base.text, hname]
  exact skipBlanks_append hblanks (Text.isBlank_of_isWord hc) _

/-- What ends a list of bases or goes on with it is no blank and no part of a base. -/
theorem takeBase_spaced (base : SpacedBase) {c : Char} (hc : c = ',' ∨ c = '\x7b')
    (rest : List Char) : ∃ behind,
      d.takeBase (Text.skipBlanks (base.spaced ++ c :: rest)) = .ok (base.text, behind) ∧
        Text.skipBlanks behind = c :: rest := by
  have hmark : Text.isBlank c = false ∧ endsBase [c] = true := by
    obtain rfl | rfl := hc <;> decide
  refine ⟨base.behind ++ c :: rest, ?_, skipBlanks_append base.isBlank_behind hmark.1 rest⟩
  rw [SpacedBase.spaced, List.append_assoc, List.append_assoc,
    base.skipBlanks_text base.isBlank_before]
  refine d.takeBase_text base.toBase ?_
  rcases hbehind : base.behind with _ | ⟨b, more⟩
  · exact hmark.2
  · have hblank := base.isBlank_behind b (by simp [hbehind])
    exact Text.forall_blank (P := fun b => endsBase (b :: (more ++ c :: rest)) = true)
      rfl rfl rfl rfl rfl b hblank

theorem takeBases_baseList {bases : List SpacedBase} (hne : bases ≠ []) {body : List Char}
    (hbody : body.head? = some '\x7b') :
    d.takeBases (baseList bases ++ body) = .ok (bases.map (·.text), body) := by
  induction bases with
  | nil => exact absurd rfl hne
  | cons base bases ih =>
      rcases bases with _ | ⟨next, bases⟩
      · obtain ⟨inside, rfl⟩ := List.head?_eq_some_iff.1 hbody
        obtain ⟨behind, hbase, hskip⟩ := d.takeBase_spaced base (.inr rfl) inside
        have hcomma : Text.eat? ',' ('\x7b' :: inside) = none := rfl
        rw [baseList, List.map_singleton, List.intercalate_singleton, takeBases_eq, hbase]
        simp only [bind, Except.bind, hskip, hcomma, List.map_singleton]
      · have hmore := ih (List.cons_ne_nil _ _)
        obtain ⟨behind, hbase, hskip⟩ :=
          d.takeBase_spaced base (.inl rfl) (baseList (next :: bases) ++ body)
        have hcomma : Text.eat? ',' (',' :: (baseList (next :: bases) ++ body)) =
            some (baseList (next :: bases) ++ body) := rfl
        have hlist : baseList (base :: next :: bases) ++ body =
            base.spaced ++ ',' :: (baseList (next :: bases) ++ body) := by
          simp [baseList, List.intercalate_cons_cons]
        rw [hlist, takeBases_eq, hbase]
        simp only [bind, Except.bind, hskip, hcomma, hmore]
        rfl

/-! ## The header -/

theorem takeBases_blank (s : List Char) : d.takeBases (' ' :: s) = d.takeBases s := by
  rw [takeBases_eq, takeBases_eq d s]
  rfl

section Interface

variable {d} {parameter : Option (List Char)} {bases : List SpacedBase} {body : List Char}
  (hparameter : ∀ name ∈ parameter, Text.isIdentifier name = true)
  (hne : bases ≠ []) (hbody : body.head? = some '\x7b')
  (htext : d.body = interfaceText parameter bases body)

include hparameter htext in
theorem takeParameters_interface : ∃ rest,
    d.takeParameters (Text.skipBlanks d.body) = .ok (parameter, rest) ∧
      Text.skipBlanks rest = "extends ".toList ++ (baseList bases ++ body) := by
  rw [htext, interfaceText]
  simp only [List.append_assoc]
  rcases parameter with _ | name
  · exact ⟨"extends ".toList ++ (baseList bases ++ body), rfl, rfl⟩
  · have htake := d.takeParameters_name (hparameter name rfl)
      (" extends ".toList ++ (baseList bases ++ body))
    refine ⟨" extends ".toList ++ (baseList bases ++ body), ?_, rfl⟩
    rwa [Option.elim_some, List.append_assoc, List.singleton_append]

include hparameter hne hbody htext in
theorem header_interface (hkind : d.kind = .interface) :
    d.header = .ok ⟨parameter, bases.map (·.text), body⟩ := by
  obtain ⟨rest, hparameters, hrest⟩ := takeParameters_interface hparameter htext
  have hextends : d.takeHeritage "extends" ("extends ".toList ++ (baseList bases ++ body)) =
      .ok (bases.map (·.text), body) := by
    rw [takeHeritage, show Text.eatKeyword? "extends"
      ("extends ".toList ++ (baseList bases ++ body)) = some (' ' :: (baseList bases ++ body))
        from rfl]
    exact (d.takeBases_blank _).trans (d.takeBases_baseList hne hbody)
  have himplements : d.takeHeritage "implements" body = .ok ([], body) := by
    obtain ⟨inside, rfl⟩ := List.head?_eq_some_iff.1 hbody
    rfl
  rw [header, hparameters]
  simp only [bind, Except.bind, hrest, hkind, true_or, if_true, hextends, himplements]
  rfl

end Interface

end Declaration

/-! ## The type of an interface -/

namespace FileTree

open Query

variable (files : FileTree) (path : Path)

/-- The types of some texts, each read with what the one before has left, until one fails. -/
def readEach (generic : Option (List Char)) :
    List (List Char) → Store → Except Error (List Expr) × Store
  | [], s => (.ok [], s)
  | text :: texts, s =>
      match Query.eval ((Term.parse generic text).resolve (files.scope path)) s with
      | (.error e, s) => (.error e, s)
      | (.ok type, s) =>
          let (types, s) := readEach generic texts s
          (types.map (type :: ·), s)

variable {path} {generic : Option (List Char)}

theorem eval_resolveAll (texts : List (List Char)) (s : Store) :
    Query.eval (Term.resolveAll (files.scope path) (texts.map (Term.parse generic))) s =
      files.readEach path generic texts s := by
  induction texts generalizing s with
  | nil => exact eval_pure _ _
  | cons text texts ih =>
      rw [List.map_cons, Term.resolveAll, eval_bind, readEach]
      rcases Query.eval ((Term.parse generic text).resolve (files.scope path)) s with ⟨e | type, s'⟩
      · rfl
      · dsimp only
        rw [eval_bind, ih]
        rcases files.readEach path generic texts s' with ⟨e | types, s''⟩
        · rfl
        · exact eval_pure _ _

theorem length_readEach {texts : List (List Char)} {s s' : Store} {types : List Expr}
    (h : files.readEach path generic texts s = (.ok types, s')) :
    types.length = texts.length := by
  induction texts generalizing s types with
  | nil =>
      obtain rfl := Except.ok.inj (Prod.mk.inj h).1
      rfl
  | cons text texts ih =>
      rw [readEach] at h
      split at h
      · cases h
      next type s₁ _ =>
        rcases hmore : files.readEach path generic texts s₁ with ⟨e | rest, s₂⟩
        · simp [hmore, Except.map] at h
        · simp only [hmore, Except.map, Prod.mk.injEq, Except.ok.injEq] at h
          obtain ⟨rfl, rfl⟩ := h
          rw [List.length_cons, ih hmore, List.length_cons]

theorem eval_resolve_written {texts : List (List Char)} (hne : texts ≠ []) (body : List Char)
    (s : Store) :
    let written : Declaration.Written :=
      ⟨Term.parse generic body, texts.map (Term.parse generic)⟩
    let read := files.readEach path generic (body :: texts) s
    Query.eval (written.resolve (files.scope path)) s =
      (read.1.map fun types => .compound .intersection (types.tail ++ types.head?.toList),
        read.2) := by
  intro written read
  have hbases : written.bases.isEmpty = false := by simpa [written] using hne
  have hresolve := @eval_resolveAll files path generic texts
  simp only [read, readEach, Declaration.Written.resolve, hbases, Bool.false_eq_true, if_false]
  rw [eval_bind]
  dsimp only [written]
  rcases Query.eval ((Term.parse generic body).resolve (files.scope path)) s with ⟨e | type, s₀⟩
  · rfl
  · dsimp only
    rw [eval_bind, hresolve]
    rcases files.readEach path generic texts s₀ with ⟨e | types, s'⟩
    · rfl
    · exact eval_pure _ _

variable {d : Declaration} {parameter : Option (List Char)} {bases : List Declaration.SpacedBase}
  {body : List Char}

/--
The type of an interface with bases is the intersection of the types of its bases, in order, and of
its body; each part is read by itself, in the scope of the module and with the type parameter of the
interface.  If one cannot be read, the error is of the kind of the first such, and the body comes
before the bases.
-/
theorem typeOf_heritage (hkind : d.kind = .interface) (hparsed : d.parsed = none)
    (hparameter : ∀ name ∈ parameter, Text.isIdentifier name = true) (hbases : bases ≠ [])
    (hbody : body.head? = some '\x7b')
    (htext : d.body = Declaration.interfaceText parameter bases body) (s : Store) :
    let read := files.readEach path parameter (body :: bases.map (·.text)) s
    (∃ e e' s', read = (.error e, s') ∧ (files.typeOf path d).eval s = (.error e', s') ∧
      e'.kind = e.kind) ∨
    ∃ type types s', read = (.ok (type :: types), s') ∧ types.length = bases.length ∧
      (files.typeOf path d).eval s = (.ok (.compound .intersection (types ++ [type])),
        s'.updateModule path (·.setParsed d.name (.compound .intersection (types ++ [type])))) := by
  intro read
  have hheader := Declaration.header_interface hparameter hbases hbody htext hkind
  have hwritten : d.written = .ok ⟨Term.parse parameter body,
      (bases.map (·.text)).map (Term.parse parameter)⟩ := by
    rw [Declaration.written, hkind]
    dsimp only
    rw [hheader]
    rfl
  have htexts : bases.map (·.text) ≠ [] := by simpa using hbases
  have hresolve := @eval_resolve_written files path parameter _ htexts body s
  have htype := files.eval_typeOf_of_ok path hparsed hwritten hresolve
  rw [show files.readEach path parameter (body :: bases.map (·.text)) s = read from rfl] at htype
  rcases hread : read with ⟨e | types, s'⟩
  · rw [hread] at htype
    exact .inl ⟨e, _, s', rfl, htype, rfl⟩
  · rw [hread] at htype
    have hlength := files.length_readEach hread
    obtain ⟨type, types, rfl⟩ : ∃ type more, types = type :: more :=
      List.exists_cons_of_length_eq_add_one hlength
    rw [List.length_cons, List.length_cons, Nat.add_right_cancel_iff, List.length_map] at hlength
    exact .inr ⟨type, types, s', rfl, hlength, htype⟩

def page : FileTree := .ofTexts [("page.d.ts",
  "export interface Box<T> \x7b held: T \x7d\n" ++
  "export interface Page<T> extends Box<T[]> ,\n  Box<Page<T>>\x7b next: T | null \x7d\n")]

def boxOf (arguments : List Char) (h : arguments.head? = some '<' ∧
    Span.take? arguments = .ok (some (arguments, []))) : Declaration.Base :=
  ⟨["Box".toList], arguments, by decide, by decide, .inr h⟩

def pageBases : List Declaration.SpacedBase :=
  [⟨boxOf "<T[]>".toList ⟨rfl, by decide +kernel⟩, [], [' '], by simp, by simp [Text.isBlank]⟩,
    ⟨boxOf "<Page<T>>".toList ⟨rfl, by decide +kernel⟩, ['\n', ' ', ' '], [],
      by simp [Text.isBlank], by simp⟩]

theorem typeOf_heritage_page :
    let path : Path := ⟨"/w/page.d.ts"⟩
    let s := ((page.load ⟨"page.d.ts"⟩).eval (.ofOptions .standard)).2
    let d : Declaration := ⟨⟨path, "Page", false⟩, .interface,
      "<T> extends Box<T[]> ,\n  Box<Page<T>>\x7b next: T | null \x7d".toList, true, 0, none⟩
    let texts := ["\x7b next: T | null \x7d".toList, "Box<T[]>".toList, "Box<Page<T>>".toList]
    ∃ type types s', page.readEach path (some ['T']) texts s = (.ok (type :: types), s') ∧
      types.length = 2 ∧
      (page.typeOf path d).eval s = (.ok (.compound .intersection (types ++ [type])),
        s'.updateModule path (·.setParsed "Page" (.compound .intersection (types ++ [type])))) ∧
      (Expr.compound .intersection (types ++ [type])).display =
        "Box<<generic>[]> & Box<Page<<generic>>> & \x7b next: <generic> | null; \x7d" := by
  intro path s d texts
  have hdisplay : ((page.typeOf path d).eval s).1.map Expr.display = .ok
      "Box<<generic>[]> & Box<Page<<generic>>> & \x7b next: <generic> | null; \x7d" := by
    decide +kernel
  obtain ⟨e, e', s', -, htype, -⟩ | ⟨type, types, s', hread, hlength, htype⟩ :=
    @typeOf_heritage page path d (some ['T']) pageBases "\x7b next: T | null \x7d".toList rfl rfl
      (by decide) (by decide) rfl rfl s
  · rw [htype] at hdisplay
    cases hdisplay
  · rw [htype] at hdisplay
    exact ⟨type, types, s', hread, hlength, htype, Except.ok.inj hdisplay⟩

end FileTree

end Typings
