import Typings.Proofs.Action
import Typings.Proofs.Bytewise.Comment
import Typings.Proofs.Bytewise.Declaration
import Typings.Proofs.Bytewise.Statement
import Typings.Statement.Meaning

/-!
# No slice is out of place

Reading by bytes comes to what reading by characters comes to, with all slices in place: from the
source to its statements, from a statement to what it says, and from a declaration to its type.
-/

namespace Typings.Bytewise

open Text

/-! ## Meanings -/

def meaning (s : Statement) : Checked Meaning := do
  match ← Scan.run s.text (Scan.reexport s.text) with
  | some taken => return .reexport taken
  | none =>
      match ← Scan.run s.text Scan.declarationHead with
      | some head => return .declaration head
      | none =>
          match ← Scan.run s.text Scan.defaultExport with
          | some name => return .defaultExport name
          | none =>
              match ← Scan.run s.text Scan.emptyExport with
              | true => return .emptyExport
              | false =>
                  match ← Scan.run s.text (Scan.localExports s.text) with
                  | some bindings => return .localExports bindings
                  | none =>
                      match ← Scan.run s.text Scan.valueDeclaration with
                      | some name => return .value name
                      | none => raise .malformedDeclaration s.text

theorem meaning_eq (s : Statement) : meaning s = done s.meaning := by
  unfold meaning Statement.meaning
  rw [Yields.reexport.run, Yields.declarationHead.run, Yields.defaultExport.run,
    Yields.emptyExport.run, Yields.localExports.run, Yields.valueDeclaration.run]
  rcases Reexport.parse? s.text with e | _ | taken
  · rfl
  · rcases Head.parse? s.text with _ | head
    · rcases LocalExport.defaultName? s.text with _ | name
      · cases LocalExport.isEmpty s.text
        · rcases LocalExport.bindings? s.text with e | _ | bindings
          · rfl
          · rcases ValueDeclaration.name? s.text with _ | name
            · exact raise_eq _ _
            · rfl
          · rfl
        · rfl
      · rfl
    · rfl
  · rfl

/-! ## Statements -/

structure Readable (s : Statement) : Prop where
  leadingWord : leadingWord s.text = some s.leadingWord
  importStatement : Scan.run s.text (Scan.importStatement s.text) = done (Import.parse s.text)
  reexport : Scan.run s.text (Scan.reexport s.text) = done (Reexport.parse? s.text)
  declarationHead : Scan.run s.text Scan.declarationHead = done (.ok (Head.parse? s.text))
  defaultExport : Scan.run s.text Scan.defaultExport = done (.ok (LocalExport.defaultName? s.text))
  emptyExport : Scan.run s.text Scan.emptyExport = done (.ok (LocalExport.isEmpty s.text))
  localExports :
    Scan.run s.text (Scan.localExports s.text) = done (LocalExport.bindings? s.text)
  valueDeclaration :
    Scan.run s.text Scan.valueDeclaration = done (.ok (ValueDeclaration.name? s.text))
  meaning : meaning s = done s.meaning

theorem readable (s : Statement) : Readable s where
  leadingWord := leadingWord_eq s
  importStatement := Yields.importStatement.run
  reexport := Yields.reexport.run
  declarationHead := Yields.declarationHead.run
  defaultExport := Yields.defaultExport.run
  emptyExport := Yields.emptyExport.run
  localExports := Yields.localExports.run
  valueDeclaration := Yields.valueDeclaration.run
  meaning := meaning_eq s

/-! ## Sources -/

/--
A slice has a result if and only if it is in place.  All that is read of a source has one: its
statements, whatever these say, and the header and the type of each declaration.
-/
theorem slices_in_place {source : List Char} (hshort : byteLength source < UInt32.size)
    (stripComments : Bool) :
    (∀ text start stop, (slice? text start stop).isSome ↔
      start ≤ stop ∧ stop ≤ byteLength text ∧ IsBoundary text start ∧ IsBoundary text stop) ∧
    statements source stripComments = some (Statement.ofSource source stripComments) ∧
    ∀ s ∈ Statement.ofSource source stripComments, Readable s ∧
      ∀ head, Head.parse? s.text = some head → ∀ d : Declaration,
        d.kind = head.kind → d.name = head.name → d.body = head.body →
          header d = done d.header ∧ written d = done d.written := by
  refine ⟨fun text start stop => isSome_slice?_iff, statements_eq hshort stripComments, ?_⟩
  intro s hs
  exact ⟨readable s, fun head _ d _ _ _ => ⟨header_eq d, written_eq d⟩⟩

def brokenOff : List Char :=
  "type A = 'ß\\é\nexport interface B<T> extends C \x7b k: 'ü\n\x7d /* ö".toList

def escapedEnd : List Char := "export type D = \"ö\\".toList

def interfaceB : Declaration :=
  ⟨⟨⟨"/b.d.ts"⟩, "B", false⟩, .interface, "<T> extends C \x7b k: 'ü \x7d".toList, true, 16, none⟩

set_option maxRecDepth 100000 in
/--
The search for comments comes to byte 14 of the first source, inside a character, and cuts nothing
there.
-/
theorem slices_in_place_brokenOff :
    byteLength brokenOff < UInt32.size ∧ byteLength escapedEnd < UInt32.size ∧
    slice? brokenOff 0 14 = none ∧ ¬ IsBoundary brokenOff 14 ∧
    statements brokenOff true =
      some [⟨"type A = 'ß\\é".toList, 0⟩,
        ⟨"export interface B<T> extends C \x7b k: 'ü \x7d".toList, 16⟩] ∧
    header interfaceB = done (.ok ⟨some ['T'], [['C']], "\x7b k: 'ü \x7d".toList⟩) ∧
    statements escapedEnd true = some [⟨escapedEnd, 0⟩] ∧
    meaning ⟨escapedEnd, 0⟩ =
      done (.ok (.declaration ⟨true, false, .typeAlias, "D", " = \"ö\\".toList⟩)) := by
  have hshort : byteLength brokenOff < UInt32.size := by decide
  have hshort' : byteLength escapedEnd < UInt32.size := by decide
  obtain ⟨hslice, hstatements, hread⟩ := slices_in_place hshort true
  obtain ⟨-, hstatements', hread'⟩ := slices_in_place hshort' true
  have hfound : Statement.ofSource brokenOff true =
      [⟨"type A = 'ß\\é".toList, 0⟩,
        ⟨"export interface B<T> extends C \x7b k: 'ü \x7d".toList, 16⟩] := by decide +kernel
  have hfound' : Statement.ofSource escapedEnd true = [⟨escapedEnd, 0⟩] := by decide +kernel
  rw [hfound] at hstatements hread
  rw [hfound'] at hstatements' hread'
  have hnone : slice? brokenOff 0 14 = none := by decide +kernel
  refine ⟨hshort, hshort', hnone, ?_, hstatements, ?_, hstatements', ?_⟩
  · intro hboundary
    have hsome := (hslice brokenOff 0 14).2
      ⟨by decide, by decide, ⟨[], brokenOff, rfl, rfl⟩, hboundary⟩
    rw [hnone] at hsome
    cases hsome
  · have hheader := (hread _ (.tail _ (.head _))).2
      ⟨true, false, .interface, "B", interfaceB.body⟩ (by decide +kernel) interfaceB rfl rfl rfl
    have hresult : interfaceB.header =
        .ok ⟨some ['T'], [['C']], "\x7b k: 'ü \x7d".toList⟩ :=
      eq_ok_of_toOption (by decide +kernel)
    rw [hheader.1, hresult]
  · have hmeaning : (⟨escapedEnd, 0⟩ : Statement).meaning =
        .ok (.declaration ⟨true, false, .typeAlias, "D", " = \"ö\\".toList⟩) :=
      eq_ok_of_toOption (by decide +kernel)
    rw [(hread' _ (.head _)).1.meaning, hmeaning]

end Typings.Bytewise
