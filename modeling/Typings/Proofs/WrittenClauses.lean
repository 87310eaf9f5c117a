import Typings.Proofs.BindingList
import Typings.Statement.Export
import Typings.Statement.Import

/-!
# Imports and re-exports as they are written

An import or a re-export is read back from every text that it is written as, with any blanks and
with either quote.  The words `type`, `as` and `from` may be names as well: where they stand decides
what they are.
-/

namespace Typings

open Text

/-! ## Statements as lexemes -/

inductive Clause.Sourced (specifier : String) : List Lexeme → Prop
  | plain (quote : Char) : Sourced specifier [.quoted quote specifier]
  | ended (quote : Char) : Sourced specifier [.quoted quote specifier, .mark ';']

namespace Import

inductive Grouped : Option String → List Binding → List Lexeme → Prop
  | namespaceName (name : String) : Grouped (some name) [] [.mark '*', .word "as", .word name]
  | named {bindings : List Binding} {ls : List Lexeme} (hne : bindings ≠ [])
      (h : Binding.Listed bindings ls) : Grouped none bindings ls

inductive Subject.Named : Subject → List Lexeme → Prop
  | defaultName (name : String) : Named ⟨some name, none, []⟩ [.word name]
  | group {namespaceName : Option String} {named : List Binding} {ls : List Lexeme}
      (h : Grouped namespaceName named ls) : Named ⟨none, namespaceName, named⟩ ls
  | both (name : String) {namespaceName : Option String} {named : List Binding}
      {ls : List Lexeme} (h : Grouped namespaceName named ls) :
      Named ⟨some name, namespaceName, named⟩ (.word name :: .mark ',' :: ls)

/-- The lexemes of an import.  Behind the modifier `type` no default name is `from`. -/
inductive Written : Import → List Lexeme → Prop
  | sideEffect {specifier : String} {ls : List Lexeme} (h : Clause.Sourced specifier ls) :
      Written ⟨none, none, [], specifier⟩ (.word "import" :: ls)
  | plain {subject : Subject} {specifier : String} {ls ls' : List Lexeme}
      (h : subject.Named ls) (hsource : Clause.Sourced specifier ls') :
      Written ⟨subject.defaultName, subject.namespaceName, subject.named, specifier⟩
        (.word "import" :: ls ++ .word "from" :: ls')
  | typeOnly {subject : Subject} {specifier : String} {ls ls' : List Lexeme}
      (hfrom : subject.defaultName ≠ some "from") (h : subject.Named ls)
      (hsource : Clause.Sourced specifier ls') :
      Written ⟨subject.defaultName, subject.namespaceName, subject.named, specifier⟩
        (.word "import" :: .word "type" :: ls ++ .word "from" :: ls')

end Import

namespace Reexport

inductive Clause.Named : Reexport.Clause → List Lexeme → Prop
  | all : Named .all [.mark '*']
  | namespaceName (name : String) :
      Named (.namespaceName name) [.mark '*', .word "as", .word name]
  | named {bindings : List Binding} {ls : List Lexeme} (h : Binding.Listed bindings ls) :
      Named (.named bindings) ls

inductive Written : Reexport → List Lexeme → Prop
  | plain {clause : Reexport.Clause} {specifier : String} {ls ls' : List Lexeme}
      (h : clause.Named ls) (hsource : Typings.Clause.Sourced specifier ls') :
      Written ⟨clause, specifier⟩ (.word "export" :: ls ++ .word "from" :: ls')
  | typeOnly {clause : Reexport.Clause} {specifier : String} {ls ls' : List Lexeme}
      (h : clause.Named ls) (hsource : Typings.Clause.Sourced specifier ls') :
      Written ⟨clause, specifier⟩ (.word "export" :: .word "type" :: ls ++ .word "from" :: ls')

end Reexport

/-! ## Reading the parts -/

variable {statement s : List Char} {ls more : List Lexeme} {specifier name : String}

theorem Clause.isEnd_of_laidOut (h : LaidOut ls (skipBlanks s)) (hls : ls = [] ∨ ls = [.mark ';']) :
    isEnd s = true := by
  rw [isEnd]
  obtain rfl | rfl := hls
  · generalize skipBlanks s = t at h
    cases h
    rfl
  · obtain ⟨rest, hs, hrest⟩ := h.exists_mark
    have hskip : skip ';' (';' :: rest) = rest := rfl
    rw [hs, hskip]
    generalize skipBlanks rest = t at hrest
    cases hrest
    rfl

theorem Clause.Sourced.specifier_eq (h : Sourced specifier ls)
    (htext : LaidOut ls (skipBlanks s)) : Clause.specifier statement s = .ok specifier := by
  have hread : ∀ {quote behind}, LaidOut (.quoted quote specifier :: behind) (skipBlanks s) →
      (behind = [] ∨ behind = [.mark ';']) → Clause.specifier statement s = .ok specifier := by
    intro quote behind h hbehind
    obtain ⟨hquote, rest, hrest, htake⟩ := h.take?_quoted
    have hend := isEnd_of_laidOut hrest hbehind
    rw [Clause.specifier, htake]
    simp [Span.inner, hquote, hend]
  cases h with
  | plain => exact hread htext (.inl rfl)
  | ended => exact hread htext (.inr rfl)

theorem Clause.takeNamespace_of_laidOut (statement : List Char)
    (h : LaidOut (.word "as" :: .word name :: more) (skipBlanks s)) :
    ∃ rest, takeNamespace statement s = .ok (name, rest) ∧ LaidOut more (skipBlanks rest) := by
  obtain ⟨behind, has, hname⟩ := h.eatKeyword?
  obtain ⟨rest, hword, hrest⟩ := hname.takeWord?
  refine ⟨rest, ?_, hrest⟩
  simp only [takeNamespace, has, hword, String.ofList_toList]

/-! ### The modifier -/

theorem Clause.skipTypeModifier_of_laidOut (h : LaidOut (.word "type" :: ls) s)
    (hfrom : ls.head? ≠ some (.word "from")) (hcomma : ls.head? ≠ some (.mark ',')) :
    LaidOut ls (skipTypeModifier s) := by
  obtain ⟨rest, htype, hrest⟩ := h.eatKeyword?
  have hnone := hrest.eatKeyword?_eq_none (by decide) hfrom
  have hhead := hrest.head?_ne rfl hcomma
  simpa [skipTypeModifier, htype, hnone, hhead] using hrest

/-- In front of `from` and of a comma, `type` is a name. -/
theorem Clause.skipTypeModifier_eq {l : Lexeme} (h : LaidOut (l :: ls) s)
    (hname : l = .word "type" →
      ls.head? = some (.word "from") ∨ ls.head? = some (.mark ',')) :
    skipTypeModifier s = s := by
  by_cases htype : l = .word "type"
  · obtain ⟨next, ls, rfl⟩ : ∃ next more, ls = next :: more := by
      cases ls with
      | nil => simp at hname; exact absurd htype hname
      | cons next more => exact ⟨next, more, rfl⟩
    specialize hname htype
    subst htype
    obtain ⟨rest, htype, hrest⟩ := h.eatKeyword?
    rw [skipTypeModifier, htype]
    obtain hfrom | hcomma := hname
    · obtain rfl := Option.some.inj hfrom
      obtain ⟨behind, hfrom, -⟩ := hrest.eatKeyword?
      simp [hfrom]
    · obtain rfl := Option.some.inj hcomma
      obtain ⟨behind, hcomma, -⟩ := hrest.exists_mark
      simp [hcomma]
  · have hnone := h.eatKeyword?_eq_none (k := "type") (by decide) fun hl =>
      htype (Option.some.inj hl)
    rw [skipTypeModifier, hnone]

/-! ## Imports -/

namespace Import

variable {namespaceName defaultName : Option String} {named : List Binding} {subject : Subject}

theorem Grouped.exists_mark (h : Grouped namespaceName named ls) :
    ∃ c tail, ls = .mark c :: tail ∧ c ≠ ',' := by
  cases h with
  | namespaceName name => exact ⟨'*', _, rfl, by decide⟩
  | named hne h =>
      cases h
      exact ⟨'\x7b', _, rfl, by decide⟩

theorem Grouped.takeGroup? (statement : List Char) (defaultName : Option String)
    (h : Grouped namespaceName named ls) (htext : LaidOut (ls ++ more) s) :
    ∃ rest, Import.takeGroup? statement s defaultName =
      some (.ok (⟨defaultName, namespaceName, named⟩, rest)) ∧
        LaidOut more (skipBlanks rest) := by
  cases h with
  | namespaceName name =>
      obtain ⟨tail, rfl, htail⟩ := htext.exists_mark
      obtain ⟨rest, htake, hrest⟩ := Clause.takeNamespace_of_laidOut statement htail
      refine ⟨rest, ?_, hrest⟩
      rw [Import.takeGroup?, htake]
      rfl
  | named hne h =>
      obtain ⟨rest, htake, hrest⟩ := h.takeBindings statement htext
      refine ⟨rest, ?_, hrest⟩
      cases h
      obtain ⟨tail, rfl, -⟩ := htext.exists_mark
      rw [Import.takeGroup?, htake]
      rfl

theorem takeGroup?_of_word (h : LaidOut (.word name :: ls) s) :
    Import.takeGroup? statement s defaultName = none := by
  have hword : startsWord s = true := h.startsWord_eq
  unfold Import.takeGroup?
  split
  · cases hword
  · cases hword
  · rfl

theorem Subject.Named.takeSubject (statement : List Char) (h : subject.Named ls)
    (htext : LaidOut (ls ++ .word "from" :: more) s) :
    ∃ rest, Import.takeSubject statement s = .ok (subject, rest) ∧
      LaidOut (.word "from" :: more) (skipBlanks rest) := by
  cases h with
  | defaultName name =>
      obtain ⟨behind, hword, hfrom⟩ := htext.takeWord?
      refine ⟨skipBlanks behind, ?_, by rwa [hfrom.skipBlanks_eq]⟩
      have hcomma : eat? ',' (skipBlanks behind) = none := by
        refine Option.eq_none_iff_forall_ne_some.2 fun rest heat => ?_
        exact hfrom.head?_ne (c := ',') rfl (by simp) (by rw [eat?_eq_some_iff.1 heat]; rfl)
      rw [Import.takeSubject, takeGroup?_of_word htext]
      simp only [hword, hcomma, String.ofList_toList]
  | group h =>
      obtain ⟨rest, htake, hrest⟩ :=
        h.takeGroup? statement none htext
      exact ⟨rest, by rw [Import.takeSubject, htake], hrest⟩
  | both name h =>
      obtain ⟨behind, hword, hcomma⟩ := htext.takeWord?
      obtain ⟨tail, heq, hgroup⟩ := hcomma.exists_mark
      obtain ⟨rest, htake, hrest⟩ :=
        h.takeGroup? statement (some name) hgroup
      refine ⟨rest, ?_, hrest⟩
      have heat : eat? ',' (',' :: tail) = some tail := rfl
      rw [Import.takeSubject, takeGroup?_of_word htext]
      simp only [hword, heq, heat, String.ofList_toList, htake, Option.getD_some]

theorem Subject.Named.front (h : subject.Named ls) : ∃ l tail, ls = l :: tail ∧
    l.isQuoted = false ∧ l ≠ .mark ',' ∧
      ∀ word, l = .word word → subject.defaultName = some word ∧
        (tail = [] ∨ tail.head? = some (.mark ',')) := by
  cases h with
  | defaultName name =>
      refine ⟨_, _, rfl, rfl, by simp, ?_⟩
      rintro _ ⟨⟩
      exact ⟨rfl, .inl rfl⟩
  | group h =>
      obtain ⟨c, tail, rfl, hc⟩ := h.exists_mark
      exact ⟨_, _, rfl, rfl, by simpa using hc, by simp⟩
  | both name h =>
      refine ⟨_, _, rfl, rfl, by simp, ?_⟩
      rintro _ ⟨⟩
      exact ⟨rfl, .inr rfl⟩

theorem parse_of_subject {text rest : List Char} {ls' : List Lexeme} (h : subject.Named ls)
    (hsource : Clause.Sourced specifier ls') (himport : eatKeyword? "import" text = some rest)
    (hquote : (skipBlanks rest).head?.any Span.isQuote = false)
    (htext : LaidOut (ls ++ .word "from" :: ls') (Clause.skipTypeModifier (skipBlanks rest))) :
    Import.parse text =
      .ok ⟨subject.defaultName, subject.namespaceName, subject.named, specifier⟩ := by
  obtain ⟨behind, hsubject, hbehind⟩ := h.takeSubject text htext
  obtain ⟨last, hfrom, hlast⟩ := hbehind.eatKeyword?
  rw [Import.parse, himport]
  simp only [hquote, Bool.false_eq_true, if_false, hsubject, hfrom, hsource.specifier_eq hlast]
  rfl

theorem Written.parse_eq {i : Import} {text : List Char} (h : i.Written ls)
    (htext : LaidOut ls text) : Import.parse text = .ok i := by
  cases h with
  | @sideEffect specifier _ h =>
      obtain ⟨rest, himport, hrest⟩ := htext.eatKeyword?
      have hquote : (skipBlanks rest).head?.any Span.isQuote = true := by
        rw [hrest.startsQuoted_eq]
        cases h <;> rfl
      rw [Import.parse, himport]
      have hspecifier : Clause.specifier text (skipBlanks rest) = .ok specifier :=
        h.specifier_eq (by rwa [hrest.skipBlanks_eq])
      simp only [hquote, if_true, hspecifier]
      rfl
  | @plain subject specifier ls ls' h hsource =>
      rw [List.cons_append] at htext
      obtain ⟨rest, himport, hrest⟩ := htext.eatKeyword?
      obtain ⟨l, tail, rfl, hquoted, -, hname⟩ := h.front
      refine parse_of_subject h hsource himport (hrest.startsQuoted_eq.trans hquoted) ?_
      rw [List.cons_append] at hrest
      rw [Clause.skipTypeModifier_eq hrest]
      · exact hrest
      · intro htype
        obtain rfl | hcomma := (hname "type" htype).2
        · exact .inl rfl
        · exact .inr (by rw [List.head?_append, hcomma]; rfl)
  | @typeOnly subject specifier ls ls' hdefault h hsource =>
      rw [List.cons_append, List.cons_append] at htext
      obtain ⟨rest, himport, hrest⟩ := htext.eatKeyword?
      refine parse_of_subject h hsource himport (hrest.startsQuoted_eq.trans rfl) ?_
      obtain ⟨l, tail, rfl, -, hcomma, hname⟩ := h.front
      refine Clause.skipTypeModifier_of_laidOut hrest (fun hl => ?_) fun hl => ?_
      · exact hdefault (hname "from" (Option.some.inj hl)).1
      · exact hcomma (Option.some.inj hl)

end Import

/-! ## Re-exports -/

namespace Reexport

variable {clause : Reexport.Clause}

theorem Clause.Named.front (h : clause.Named ls) :
    ∃ c tail, ls = .mark c :: tail ∧ c ≠ ',' := by
  cases h with
  | all => exact ⟨'*', _, rfl, by decide⟩
  | namespaceName name => exact ⟨'*', _, rfl, by decide⟩
  | named h =>
      cases h
      exact ⟨'\x7b', _, rfl, by decide⟩

theorem Clause.Named.takeClause (statement : List Char) (h : clause.Named ls)
    (htext : LaidOut (ls ++ .word "from" :: more) s) :
    ∃ rest, Reexport.takeClause statement s = .ok (some (clause, rest)) ∧
      LaidOut (.word "from" :: more) (skipBlanks rest) := by
  cases h with
  | all =>
      obtain ⟨tail, rfl, htail⟩ := htext.exists_mark
      have has := htail.eatKeyword?_eq_none (k := "as") (by decide) (by simp)
      refine ⟨skipBlanks tail, ?_, by rwa [htail.skipBlanks_eq]⟩
      rw [Reexport.takeClause, has]
      rfl
  | namespaceName name =>
      obtain ⟨tail, rfl, htail⟩ := htext.exists_mark
      obtain ⟨behind, has, -⟩ := htail.eatKeyword?
      have hname := htail
      rw [← htail.skipBlanks_eq] at hname
      obtain ⟨rest, htake, hrest⟩ :=
        Typings.Clause.takeNamespace_of_laidOut statement hname
      refine ⟨rest, ?_, hrest⟩
      rw [Reexport.takeClause, has, htake]
      rfl
  | named h =>
      obtain ⟨rest, htake, hrest⟩ := h.takeBindings statement htext
      refine ⟨rest, ?_, hrest⟩
      cases h
      obtain ⟨tail, rfl, -⟩ := htext.exists_mark
      rw [Reexport.takeClause, htake]
      rfl

theorem parse?_of_clause {text rest : List Char} {ls' : List Lexeme} (h : clause.Named ls)
    (hsource : Typings.Clause.Sourced specifier ls')
    (hexport : eatKeyword? "export" text = some rest)
    (htext : LaidOut (ls ++ .word "from" :: ls')
      (Typings.Clause.skipTypeModifier (skipBlanks rest))) :
    Reexport.parse? text = .ok (some ⟨clause, specifier⟩) := by
  obtain ⟨behind, hclause, hbehind⟩ := h.takeClause text htext
  obtain ⟨last, hfrom, hlast⟩ := hbehind.eatKeyword?
  rw [Reexport.parse?, hexport]
  simp only [hclause, hfrom, hsource.specifier_eq hlast]
  rfl

theorem Written.parse?_eq {r : Reexport} {text : List Char} (h : r.Written ls)
    (htext : LaidOut ls text) : Reexport.parse? text = .ok (some r) := by
  cases h with
  | @plain clause specifier ls ls' h hsource =>
      rw [List.cons_append] at htext
      obtain ⟨rest, hexport, hrest⟩ := htext.eatKeyword?
      refine parse?_of_clause h hsource hexport ?_
      obtain ⟨c, tail, rfl, -⟩ := h.front
      rw [List.cons_append] at hrest
      rwa [Typings.Clause.skipTypeModifier_eq hrest (by simp)]
  | @typeOnly clause specifier ls ls' h hsource =>
      rw [List.cons_append, List.cons_append] at htext
      obtain ⟨rest, hexport, hrest⟩ := htext.eatKeyword?
      refine parse?_of_clause h hsource hexport ?_
      obtain ⟨c, tail, rfl, hc⟩ := h.front
      exact Typings.Clause.skipTypeModifier_of_laidOut hrest (by simp) (by simpa using hc)

end Reexport

/-- Whatever an import or a re-export names, and however it is written, its parts are read back. -/
theorem Statement.written_clauses_read :
    (∀ (i : Import) (ls : List Lexeme) (text : List Char), i.Written ls → LaidOut ls text →
      Import.parse text = .ok i) ∧
    ∀ (r : Reexport) (ls : List Lexeme) (text : List Char), r.Written ls → LaidOut ls text →
      Reexport.parse? text = .ok (some r) :=
  ⟨fun _ _ _ h htext => h.parse_eq htext, fun _ _ _ h htext => h.parse?_eq htext⟩

theorem Statement.written_clauses_read_contextual :
    (∃ ls, Import.Written ⟨some "type", none, [⟨"as", some "from"⟩], "./a"⟩ ls ∧
      LaidOut ls "import type type,\x7btype as\tas from ,\x7dfrom './a' ;".toList ∧
      Import.parse "import type type,\x7btype as\tas from ,\x7dfrom './a' ;".toList =
        .ok ⟨some "type", none, [⟨"as", some "from"⟩], "./a"⟩) ∧
    ∃ ls, Reexport.Written ⟨.namespaceName "as", "./b\""⟩ ls ∧
      LaidOut ls "export*as as from'./b\"'".toList ∧
      Reexport.parse? "export*as as from'./b\"'".toList =
        .ok (some ⟨.namespaceName "as", "./b\""⟩) := by
  have himport : Import.Written ⟨some "type", none, [⟨"as", some "from"⟩], "./a"⟩ _ :=
    .typeOnly (by decide) (.both "type" (.named (by decide)
      (.intro (.cons (.marked ⟨"as", some "from"⟩) (.cons .empty .nil))))) (.ended '\'')
  have hreexport : Reexport.Written ⟨.namespaceName "as", "./b\""⟩ _ :=
    .plain (.namespaceName "as") (.plain '\'')
  have himportText : LaidOut _ "import type type,\x7btype as\tas from ,\x7dfrom './a' ;".toList :=
    @LaidOut.of_isSpaced [(.word "import", [' ']), (.word "type", [' ']), (.word "type", []),
      (.mark ',', []), (.mark '\x7b', []), (.word "type", [' ']), (.word "as", ['\t']),
      (.word "as", [' ']), (.word "from", [' ']), (.mark ',', []), (.mark '\x7d', []),
      (.word "from", [' ']), (.quoted '\'' "./a", [' ']), (.mark ';', [])] rfl
  have hreexportText : LaidOut _ "export*as as from'./b\"'".toList :=
    @LaidOut.of_isSpaced [(.word "export", []), (.mark '*', []), (.word "as", [' ']),
      (.word "as", [' ']), (.word "from", []), (.quoted '\'' "./b\"", [])] rfl
  exact ⟨⟨_, himport, himportText, written_clauses_read.1 _ _ _ himport himportText⟩,
    ⟨_, hreexport, hreexportText, written_clauses_read.2 _ _ _ hreexport hreexportText⟩⟩

end Typings
