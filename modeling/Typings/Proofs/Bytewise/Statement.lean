import Typings.Proofs.Bytewise.Cursor
import Typings.Statement.Export
import Typings.Statement.Head
import Typings.Statement.Import

/-!
# Statements by bytes

The recognizers of import and export statements and of heads of declarations, as scans of the text
of a statement.
-/

namespace Typings.Bytewise

open Text

namespace Scan

/-! ## Parts of statements -/

def eatTypeModifier : Scan Unit := do
  let before ← get
  match ← eatKeyword "type" with
  | false => return ()
  | true =>
      skipBlanks
      match ← eatKeyword "from" with
      | true => set before
      | false =>
          match ← sees (· == ',') with
          | true => set before
          | false => return ()

def takeNamespace (statement : List Char) : Scan String := do
  skipBlanks
  match ← eatKeyword "as" with
  | false => fail .malformedDeclaration statement
  | true =>
      skipBlanks
      match ← takeWord with
      | none => fail .malformedDeclaration statement
      | some name => return String.ofList name

def bindings (statement : List Char) : List (List Char) → Scan (List Binding)
  | [] => return []
  | [] :: entries => bindings statement entries
  | entry :: entries =>
      match Binding.ofEntry? entry with
      | none => fail .malformedDeclaration statement
      | some binding => return binding :: (← bindings statement entries)

def takeBindings (statement : List Char) : Scan (List Binding) := do
  match ← pair (← rest) with
  | none => fail .malformedDeclaration statement
  | some span =>
      advance (byteLength span)
      bindings statement (← arguments (← inner span))

def finish : Scan Bool := do
  skipBlanks
  let _ ← eat ';'
  skipBlanks
  isAtEnd

def specifier (statement : List Char) : Scan String := do
  skipBlanks
  match ← pair (← rest) with
  | none => fail .malformedDeclaration statement
  | some span =>
      match span.head?.any Span.isQuote with
      | false => fail .malformedDeclaration statement
      | true =>
          advance (byteLength span)
          match ← finish with
          | false => fail .malformedDeclaration statement
          | true => return String.ofList (← inner span)

/-! ## Imports -/

def takeGroup (statement : List Char) (defaultName : Option String) :
    Scan (Option Import.Subject) := do
  match ← sees (· == '\x7b') with
  | true => return some ⟨defaultName, none, ← takeBindings statement⟩
  | false =>
      match ← eat '*' with
      | true => return some ⟨defaultName, some (← takeNamespace statement), []⟩
      | false => return none

def takeSubject (statement : List Char) : Scan Import.Subject := do
  match ← takeGroup statement none with
  | some subject => return subject
  | none =>
      match ← takeWord with
      | none => fail .malformedDeclaration statement
      | some name =>
          skipBlanks
          match ← eat ',' with
          | false => return ⟨some (String.ofList name), none, []⟩
          | true =>
              skipBlanks
              match ← takeGroup statement (some (String.ofList name)) with
              | none => fail .malformedDeclaration statement
              | some subject => return subject

def importStatement (statement : List Char) : Scan Import := do
  match ← eatKeyword "import" with
  | false => fail .malformedDeclaration statement
  | true =>
      skipBlanks
      match ← sees Span.isQuote with
      | true => return ⟨none, none, [], ← specifier statement⟩
      | false =>
          eatTypeModifier
          let subject ← takeSubject statement
          skipBlanks
          match ← eatKeyword "from" with
          | false => fail .malformedDeclaration statement
          | true =>
              return ⟨subject.defaultName, subject.namespaceName, subject.named,
                ← specifier statement⟩

/-! ## Exports -/

def takeClause (statement : List Char) : Scan (Option Reexport.Clause) := do
  match ← eat '*' with
  | true =>
      skipBlanks
      match ← eatKeyword "as" with
      | false => return some .all
      | true =>
          skipBlanks
          match ← takeWord with
          | none => fail .malformedDeclaration statement
          | some name => return some (.namespaceName (String.ofList name))
  | false =>
      match ← sees (· == '\x7b') with
      | true => return some (.named (← takeBindings statement))
      | false => return none

def reexport (statement : List Char) : Scan (Option Reexport) := do
  match ← eatKeyword "export" with
  | false => return none
  | true =>
      skipBlanks
      eatTypeModifier
      match ← takeClause statement with
      | none => return none
      | some clause =>
          skipBlanks
          match ← eatKeyword "from" with
          | false => return none
          | true => return some ⟨clause, ← specifier statement⟩

def defaultExport : Scan (Option String) := do
  match ← eatKeyword "export" with
  | false => return none
  | true =>
      skipBlanks
      match ← eatKeyword "default" with
      | false => return none
      | true =>
          skipBlanks
          match ← takeWord with
          | none => return none
          | some name =>
              match ← finish with
              | false => return none
              | true => return some (String.ofList name)

def emptyExport : Scan Bool := do
  match ← eatKeyword "export" with
  | false => return false
  | true =>
      skipBlanks
      match ← eat '\x7b' with
      | false => return false
      | true =>
          skipBlanks
          match ← eat '\x7d' with
          | false => return false
          | true => finish

def localExports (statement : List Char) : Scan (Option (List Binding)) := do
  match ← eatKeyword "export" with
  | false => return none
  | true =>
      skipBlanks
      eatTypeModifier
      match ← sees (· == '\x7b') with
      | false => return none
      | true =>
          let bindings ← takeBindings statement
          match ← finish with
          | false => fail .malformedDeclaration statement
          | true => return some bindings

/-! ## Declarations -/

def eatFirst : List String → Scan (Option String)
  | [] => return none
  | keyword :: keywords => do
      match ← eatKeyword keyword with
      | true => return some keyword
      | false => eatFirst keywords

def keywordRound (keywords : List String) (next : Unit → Scan (List String)) (_ : Unit) :
    Scan (List String) := do
  match ← eatFirst keywords with
  | none => return []
  | some keyword =>
      skipBlanks
      return keyword :: (← next ())

def takeKeywords (keywords : List String) : Scan (List String) :=
  repeated (keywordRound keywords) ()

def declarationHead : Scan (Option Head) := do
  let exported ← eatKeyword "export"
  skipBlanks
  let found ← takeKeywords Head.modifiers
  match ← takeWord with
  | none => return none
  | some word =>
      match DeclarationKind.ofKeyword? (String.ofList word) with
      | none => return none
      | some kind =>
          match found.contains "const" && kind != .enumeration with
          | true => return none
          | false =>
              skipBlanks
              match ← takeWord with
              | none => return none
              | some name =>
                  return some
                    ⟨exported, found.contains "default", kind, String.ofList name, ← rest⟩

def eatStar (keyword : String) : Scan Bool :=
  match keyword == "function" with
  | true => eat '*'
  | false => return false

def valueDeclaration : Scan (Option String) := do
  let _ ← takeKeywords ValueDeclaration.modifiers
  match ← eatFirst ValueDeclaration.keywords with
  | none => return none
  | some keyword =>
      let _ ← eatStar keyword
      skipBlanks
      return (← takeWord).map String.ofList

end Scan

/-! ## What the parts read -/

section Parts

variable {text s r : List Char} {α : Type}

namespace Reads

theorem eatTypeModifier :
    Reads text s Scan.eatTypeModifier (.ok ((), Clause.skipTypeModifier s)) := by
  refine of_suffix fun hs => Reads.get.bind ?_
  unfold Clause.skipTypeModifier
  rcases htype : eatKeyword? "type" s with _ | rest
  · exact (eatKeyword_none htype).bind (.pure ())
  refine (eatKeyword_some htype).bind (skipBlanks.bind ?_)
  dsimp only
  rcases hfrom : eatKeyword? "from" (Text.skipBlanks rest) with _ | behind
  · refine (eatKeyword_none hfrom).bind ((sees (asciiOnly_beq (by decide))).bind ?_)
    rw [head?_any_beq, Option.isSome_none, Bool.false_or]
    cases (Text.skipBlanks rest).head? == some ','
    · exact .pure ()
    · exact .set hs
  · exact (eatKeyword_some hfrom).bind (.set hs)

theorem takeNamespace (statement : List Char) :
    Reads text s (Scan.takeNamespace statement) (Clause.takeNamespace statement s) := by
  unfold Clause.takeNamespace
  refine skipBlanks.bind ?_
  rcases has : eatKeyword? "as" (Text.skipBlanks s) with _ | rest
  · exact (eatKeyword_none has).bind (.fail _ _)
  refine (eatKeyword_some has).bind (skipBlanks.bind ?_)
  dsimp only
  rcases hword : takeWord? (Text.skipBlanks rest) with _ | ⟨name, behind⟩
  · exact (takeWord_none hword).bind (.fail _ _)
  · exact (takeWord_some hword).bind (.pure _)

theorem bindings (statement : List Char) (entries : List (List Char)) :
    Reads text s (Scan.bindings statement entries)
      ((Binding.ofEntries statement entries).map fun found => (found, s)) := by
  fun_induction Binding.ofEntries statement entries with
  | case1 => exact .pure []
  | case2 entries ih => exact ih
  | case3 entry entries hne hnone =>
      rw [Scan.bindings, hnone]
      · exact .fail _ _
      · exact hne
  | case4 entry entries hne binding hbinding ih =>
      rw [Scan.bindings, hbinding]
      · rcases hmore : Binding.ofEntries statement entries with e | found
        · rw [hmore] at ih
          exact ih.bind_error
        · rw [hmore] at ih
          exact ih.bind (.pure _)
      · exact hne

theorem takeBindings (statement : List Char) :
    Reads text s (Scan.takeBindings statement) (Clause.takeBindings statement s) := by
  unfold Clause.takeBindings
  refine rest.bind ?_
  rcases htake : Span.take? s with e | _ | ⟨span, behind⟩
  · exact (pair_error htake).bind_error
  · exact (pair_none htake).bind (.fail _ _)
  refine (pair_some htake).bind ((advance_span htake).bind ((inner htake).bind ?_))
  have hsplit : Reads text behind (liftM (Bytewise.arguments (Span.inner span))) _ :=
    Reads.arguments _
  dsimp only
  rcases hentries : Span.arguments (Span.inner span) with e | entries <;> rw [hentries] at hsplit
  · exact hsplit.bind_error
  · exact hsplit.bind (bindings statement entries)

end Reads

namespace Yields

theorem finish : Yields text s Scan.finish (.ok (Clause.isEnd s)) :=
  Reads.skipBlanks.yields ((Reads.eat (by decide)).yields
    (Reads.skipBlanks.yields (.of_reads .isAtEnd)))

theorem specifier (statement : List Char) :
    Yields text s (Scan.specifier statement) (Clause.specifier statement s) := by
  unfold Clause.specifier
  refine Reads.skipBlanks.yields (Reads.rest.yields ?_)
  rcases htake : Span.take? (Text.skipBlanks s) with e | _ | ⟨span, behind⟩
  · exact .of_reads (Reads.pair_error htake).bind_error
  · exact (Reads.pair_none htake).yields (.fail _ _)
  refine (Reads.pair_some htake).yields ?_
  dsimp only
  cases span.head?.any Span.isQuote
  · exact .fail _ _
  refine (Reads.advance_span htake).yields (finish.bind fun r => ?_)
  rw [Bool.true_and]
  cases Clause.isEnd behind
  · exact .fail _ _
  · exact (Reads.inner htake).yields (.pure _)

end Yields

end Parts

/-! ## What the recognizers yield -/

section Recognizers

variable {text s r : List Char} {statement : List Char}

theorem asciiOnly_brace : AsciiOnly (· == '\x7b') := asciiOnly_beq (by decide)

namespace Reads

theorem takeGroup_some {defaultName : Option String}
    {group : Except Error (Import.Subject × List Char)}
    (h : Import.takeGroup? statement s defaultName = some group) :
    Reads text s (Scan.takeGroup statement defaultName)
      (group.map fun found => (some found.1, found.2)) := by
  unfold Import.takeGroup? at h
  split at h
  next tail =>
    obtain rfl := Option.some.inj h
    have hread : Reads text ('\x7b' :: tail) (Scan.takeBindings statement) _ := takeBindings _
    refine (sees_true asciiOnly_brace rfl).bind ?_
    rcases hfound : Clause.takeBindings statement ('\x7b' :: tail) with e | found <;>
      rw [hfound] at hread
    · exact hread.bind_error
    · exact hread.bind (.pure _)
  next tail =>
    obtain rfl := Option.some.inj h
    have hread : Reads text tail (Scan.takeNamespace statement) _ := takeNamespace _
    refine (sees_false asciiOnly_brace rfl).bind ((eat_some (by decide) rfl).bind ?_)
    rcases hfound : Clause.takeNamespace statement tail with e | found <;> rw [hfound] at hread
    · exact hread.bind_error
    · exact hread.bind (.pure _)
  · cases h

theorem takeGroup_none {defaultName : Option String}
    (h : Import.takeGroup? statement s defaultName = none) :
    Reads text s (Scan.takeGroup statement defaultName) (.ok (none, s)) := by
  unfold Import.takeGroup? at h
  split at h
  · cases h
  · cases h
  next hbrace hstar =>
    exact (sees_false asciiOnly_brace (head?_any_eq_false hbrace)).bind
      ((eat_none (by decide) (eat?_eq_none hstar)).bind (.pure none))

theorem takeSubject (statement : List Char) :
    Reads text s (Scan.takeSubject statement) (Import.takeSubject statement s) := by
  unfold Import.takeSubject
  rcases hgroup : Import.takeGroup? statement s none with _ | e | found
  · refine (takeGroup_none hgroup).bind ?_
    dsimp only
    rcases hword : takeWord? s with _ | ⟨name, behind⟩
    · exact (takeWord_none hword).bind (.fail _ _)
    refine (takeWord_some hword).bind (skipBlanks.bind ((eat (by decide)).bind ?_))
    dsimp only
    rcases hcomma : eat? ',' (Text.skipBlanks behind) with _ | rest
    · rw [Text.skip, hcomma]
      exact .pure _
    rw [Text.skip, hcomma]
    refine skipBlanks.bind ?_
    dsimp only [Option.getD_some]
    rcases hgroup : Import.takeGroup? statement (Text.skipBlanks rest)
        (some (String.ofList name)) with _ | e | found
    · exact (takeGroup_none hgroup).bind (.fail _ _)
    · exact (takeGroup_some hgroup).bind_error
    · exact (takeGroup_some hgroup).bind (.pure _)
  · exact (takeGroup_some hgroup).bind_error
  · exact (takeGroup_some hgroup).bind (.pure _)

end Reads

namespace Yields

theorem importStatement :
    Yields text s (Scan.importStatement s) (Import.parse s) := by
  unfold Import.parse
  rcases himport : eatKeyword? "import" s with _ | rest
  · exact (Reads.eatKeyword_none himport).yields (.fail _ _)
  refine (Reads.eatKeyword_some himport).yields (Reads.skipBlanks.yields ?_)
  refine (Reads.sees asciiOnly_isQuote).yields ?_
  dsimp only
  cases (Text.skipBlanks rest).head?.any Span.isQuote
  · refine Reads.eatTypeModifier.yields ?_
    have hsubject : Reads text (Clause.skipTypeModifier (Text.skipBlanks rest))
        (Scan.takeSubject s) _ := Reads.takeSubject s
    rcases hfound : Import.takeSubject s (Clause.skipTypeModifier (Text.skipBlanks rest)) with
      e | ⟨subject, behind⟩ <;> rw [hfound] at hsubject
    · exact .of_reads hsubject.bind_error
    refine hsubject.yields (Reads.skipBlanks.yields ?_)
    dsimp only
    rcases hfrom : eatKeyword? "from" (Text.skipBlanks behind) with _ | rest'
    · exact (Reads.eatKeyword_none hfrom).yields (.fail _ _)
    · exact (Reads.eatKeyword_some hfrom).yields (specifier s).map
  · exact (specifier s).map

end Yields

/-! ### Exports -/

theorem skipBlanks_skipBlanks (s : List Char) : skipBlanks (skipBlanks s) = skipBlanks s := by
  induction s with
  | nil => rfl
  | cons c s ih =>
      cases hc : isBlank c
      · simp [skipBlanks, hc]
      · simpa [skipBlanks, hc] using ih

namespace Reads

theorem takeClause (statement : List Char) :
    Reads text s (Scan.takeClause statement)
      ((Reexport.takeClause statement s).map fun found =>
        (found.map Prod.fst, (found.map Prod.snd).getD s)) := by
  unfold Reexport.takeClause
  split
  next tail =>
    refine (eat_some (by decide) rfl).bind (skipBlanks.bind ?_)
    dsimp only
    rcases has : eatKeyword? "as" (Text.skipBlanks tail) with _ | rest
    · exact (eatKeyword_none has).bind (.pure _)
    refine (eatKeyword_some has).bind (skipBlanks.bind ?_)
    rw [Option.isSome_some, if_pos rfl, Clause.takeNamespace, skipBlanks_skipBlanks, has]
    dsimp only
    rcases hword : takeWord? (Text.skipBlanks rest) with _ | ⟨name, behind⟩
    · exact (takeWord_none hword).bind (.fail _ _)
    · exact (takeWord_some hword).bind (.pure _)
  next tail =>
    refine (eat_none (by decide) rfl).bind
      ((sees_true asciiOnly_brace rfl).bind ?_)
    have hread : Reads text ('\x7b' :: tail) (Scan.takeBindings statement) _ := takeBindings _
    rcases hfound : Clause.takeBindings statement ('\x7b' :: tail) with e | found <;>
      rw [hfound] at hread
    · exact hread.bind_error
    · exact hread.bind (.pure _)
  next hstar hbrace =>
    exact (eat_none (by decide) (eat?_eq_none hstar)).bind
      ((sees_false asciiOnly_brace (head?_any_eq_false hbrace)).bind (.pure none))

end Reads

namespace Yields

theorem reexport : Yields text s (Scan.reexport s) (Reexport.parse? s) := by
  unfold Reexport.parse?
  rcases hexport : eatKeyword? "export" s with _ | rest
  · exact (Reads.eatKeyword_none hexport).yields (.pure none)
  refine (Reads.eatKeyword_some hexport).yields
    (Reads.skipBlanks.yields (Reads.eatTypeModifier.yields ?_))
  have hclause : Reads text (Clause.skipTypeModifier (Text.skipBlanks rest))
      (Scan.takeClause s) _ := Reads.takeClause s
  dsimp only
  rcases hfound : Reexport.takeClause s (Clause.skipTypeModifier (Text.skipBlanks rest)) with
    e | _ | ⟨clause, behind⟩ <;> rw [hfound] at hclause
  · exact .of_reads hclause.bind_error
  · exact hclause.yields (.pure none)
  refine hclause.yields (Reads.skipBlanks.yields ?_)
  dsimp only
  rcases hfrom : eatKeyword? "from" (Text.skipBlanks behind) with _ | rest'
  · exact (Reads.eatKeyword_none hfrom).yields (.pure none)
  · exact (Reads.eatKeyword_some hfrom).yields (specifier s).map

theorem defaultExport : Yields text s Scan.defaultExport (.ok (LocalExport.defaultName? s)) := by
  unfold LocalExport.defaultName?
  rcases hexport : eatKeyword? "export" s with _ | rest
  · exact (Reads.eatKeyword_none hexport).yields (.pure none)
  refine (Reads.eatKeyword_some hexport).yields (Reads.skipBlanks.yields ?_)
  simp only [Option.bind_eq_bind, Option.bind_some]
  rcases hdefault : eatKeyword? "default" (Text.skipBlanks rest) with _ | rest'
  · exact (Reads.eatKeyword_none hdefault).yields (.pure none)
  refine (Reads.eatKeyword_some hdefault).yields (Reads.skipBlanks.yields ?_)
  rw [Option.bind_some]
  rcases hword : takeWord? (Text.skipBlanks rest') with _ | ⟨name, behind⟩
  · exact (Reads.takeWord_none hword).yields (.pure none)
  refine (Reads.takeWord_some hword).yields (finish.bind fun r => ?_)
  rw [Option.bind_some]
  dsimp only
  cases Clause.isEnd behind
  · exact .pure none
  · exact .pure _

theorem emptyExport : Yields text s Scan.emptyExport (.ok (LocalExport.isEmpty s)) := by
  unfold LocalExport.isEmpty
  rcases hexport : eatKeyword? "export" s with _ | rest
  · exact (Reads.eatKeyword_none hexport).yields (.pure false)
  refine (Reads.eatKeyword_some hexport).yields (Reads.skipBlanks.yields ?_)
  simp only [Option.bind_eq_bind, Option.bind_some]
  refine (Reads.eat (by decide)).yields ?_
  rcases hopen : eat? '\x7b' (Text.skipBlanks rest) with _ | rest'
  · exact .pure false
  rw [Text.skip, hopen]
  refine Reads.skipBlanks.yields ((Reads.eat (by decide)).yields ?_)
  rw [Option.bind_some, Option.getD_some]
  rcases hclose : eat? '\x7d' (Text.skipBlanks rest') with _ | behind
  · exact .pure false
  rw [Text.skip, hclose, Option.bind_some, Option.getD_some]
  have hsome : (if Clause.isEnd behind = true then some () else none).isSome =
      Clause.isEnd behind := by
    cases Clause.isEnd behind <;> rfl
  rw [hsome]
  exact finish

theorem localExports : Yields text s (Scan.localExports s) (LocalExport.bindings? s) := by
  unfold LocalExport.bindings?
  rcases hexport : eatKeyword? "export" s with _ | rest
  · exact (Reads.eatKeyword_none hexport).yields (.pure none)
  refine (Reads.eatKeyword_some hexport).yields
    (Reads.skipBlanks.yields (Reads.eatTypeModifier.yields ?_))
  refine (Reads.sees asciiOnly_brace).yields ?_
  dsimp only
  rw [head?_any_beq]
  cases (Clause.skipTypeModifier (Text.skipBlanks rest)).head? == some '\x7b'
  · exact .pure none
  rw [if_pos rfl]
  have hbindings : Reads text (Clause.skipTypeModifier (Text.skipBlanks rest))
      (Scan.takeBindings s) _ := Reads.takeBindings s
  rcases hfound : Clause.takeBindings s (Clause.skipTypeModifier (Text.skipBlanks rest)) with
    e | ⟨bindings, behind⟩ <;> rw [hfound] at hbindings
  · exact .of_reads hbindings.bind_error
  refine hbindings.yields (finish.bind fun r => ?_)
  dsimp only
  cases Clause.isEnd behind
  · exact .fail _ _
  · exact .pure _

end Yields

/-! ### Declarations -/

namespace Reads

theorem eatFirst (keywords : List String) :
    Reads text s (Scan.eatFirst keywords)
      (.ok (match eatFirst? keywords s with
        | none => (none, s)
        | some (keyword, rest) => (some keyword, rest))) := by
  induction keywords with
  | nil => exact .pure none
  | cons keyword keywords ih =>
      rw [eatFirst?, List.findSome?_cons]
      rcases h : eatKeyword? keyword s with _ | rest
      · exact (eatKeyword_none h).bind ih
      · exact (eatKeyword_some h).bind (.pure _)

theorem takeKeywords {keywords : List String} (proper : ∀ k ∈ keywords, k.toList ≠ []) :
    Reads text s (Scan.takeKeywords keywords) (.ok (Text.takeKeywords keywords proper s)) := by
  refine repeated (fun _ s => .ok (Text.takeKeywords keywords proper s))
    (fun _ s next ih => ?_) ()
  have hfirst : Reads text s (Scan.eatFirst keywords) _ := eatFirst keywords
  rw [Text.takeKeywords]
  split
  next hnone =>
    rw [hnone] at hfirst
    exact hfirst.bind (.pure [])
  next keyword rest hsome =>
    rw [hsome] at hfirst
    have hshort := Nat.lt_of_le_of_lt (length_skipBlanks_le rest) (length_eatFirst? proper hsome)
    exact hfirst.bind (skipBlanks.bind ((ih () _ hshort).bind (.pure _)))

theorem eatStar (keyword : String) :
    Reads text s (Scan.eatStar keyword)
      (.ok (keyword == "function" && (eat? '*' s).isSome,
        if keyword = "function" then Text.skip '*' s else s)) := by
  unfold Scan.eatStar
  by_cases h : keyword = "function"
  · rw [beq_iff_eq.2 h, if_pos h, Bool.true_and]
    exact eat (by decide)
  · rw [beq_eq_false_iff_ne.2 h, if_neg h]
    exact .pure false

end Reads

namespace Yields

theorem declarationHead : Yields text s Scan.declarationHead (.ok (Head.parse? s)) := by
  have hexport : Reads text s (Scan.eatKeyword "export")
      (.ok ((eatKeyword? "export" s).isSome, (eatKeyword? "export" s).getD s)) := by
    rcases h : eatKeyword? "export" s with _ | rest
    · exact Reads.eatKeyword_none h
    · exact Reads.eatKeyword_some h
  unfold Head.parse?
  refine hexport.yields (Reads.skipBlanks.yields ?_)
  refine (Reads.takeKeywords (by decide)).yields ?_
  dsimp only
  generalize Text.takeKeywords Head.modifiers _ _ = found
  rcases hword : takeWord? found.2 with _ | ⟨word, behind⟩
  · exact (Reads.takeWord_none hword).yields (.pure none)
  refine (Reads.takeWord_some hword).yields ?_
  simp only [Option.bind_eq_bind, Option.bind_some]
  rcases DeclarationKind.ofKeyword? (String.ofList word) with _ | kind
  · exact .pure none
  rw [Option.bind_some]
  dsimp only
  cases found.1.contains "const" && kind != .enumeration
  · refine Reads.skipBlanks.yields ?_
    rw [if_neg Bool.false_ne_true]
    rcases hname : takeWord? (Text.skipBlanks behind) with _ | ⟨name, body⟩
    · exact (Reads.takeWord_none hname).yields (.pure none)
    · exact (Reads.takeWord_some hname).yields (Reads.rest.yields (.pure _))
  · exact .pure none

theorem valueDeclaration :
    Yields text s Scan.valueDeclaration (.ok (ValueDeclaration.name? s)) := by
  unfold ValueDeclaration.name?
  refine (Reads.takeKeywords (by decide)).yields ?_
  dsimp only
  generalize Text.takeKeywords ValueDeclaration.modifiers _ _ = found
  have hfirst : Reads text found.2 (Scan.eatFirst ValueDeclaration.keywords) _ := Reads.eatFirst _
  rcases hkeyword : eatFirst? ValueDeclaration.keywords found.2 with _ | ⟨keyword, rest⟩
  · rw [hkeyword] at hfirst
    exact hfirst.yields (.pure none)
  rw [hkeyword] at hfirst
  refine hfirst.yields ((Reads.eatStar keyword).yields (Reads.skipBlanks.yields ?_))
  simp only [Option.bind_eq_bind, Option.bind_some]
  generalize (if keyword = "function" then skip '*' rest else rest) = rest'
  rcases hname : takeWord? (Text.skipBlanks rest') with _ | ⟨name, behind⟩
  · exact (Reads.takeWord_none hname).yields (.pure none)
  · exact (Reads.takeWord_some hname).yields (.pure _)

end Yields

end Recognizers

end Typings.Bytewise
