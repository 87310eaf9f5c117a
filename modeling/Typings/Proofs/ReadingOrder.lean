import Typings.Proofs.Recognition

/-!
# The order of the readers

The first reader that has something to say about a statement reads it.  Where at most one reader
accepts a statement, the order in which they are asked does not decide what the statement means.
-/

namespace Typings

variable {s : List Char}

def Meaning.plain : Meaning → Meaning
  | .emptyExport => .localExports []
  | meaning => meaning

namespace Reader

variable {f g : Reader} {m : Meaning} {order : List Reader}

/-! ## Searches -/

/-- The first reader in the order that accepts the statement or fails on it decides. -/
def search (statement : List Char) : List Reader → Except Error (Option Meaning)
  | [] => .ok none
  | f :: order =>
      match f.read statement with
      | .ok none => search statement order
      | found => found

def meaning (statement : List Char) (order : List Reader) : Except Error Meaning :=
  match search statement order with
  | .error e => .error e
  | .ok (some m) => .ok m
  | .ok none => .error (.malformedDeclaration statement)

theorem search_of_silent (h : ∀ f ∈ order, f.read s = .ok none) : search s order = .ok none := by
  induction order with
  | nil => rfl
  | cons f order ih =>
      rw [List.forall_mem_cons] at h
      rw [search, h.1]
      exact ih h.2

theorem search_of_first (hf : f.read s ≠ .ok none) (hmem : f ∈ order)
    (hfirst : ∀ g, g.read s ≠ .ok none → g ≠ f → order.idxOf f < order.idxOf g) :
    search s order = f.read s := by
  induction order with
  | nil => cases hmem
  | cons g order ih =>
      by_cases hsame : g = f
      · subst hsame
        rw [search]
        split
        next hnone => exact absurd hnone hf
        · rfl
      have hsilent : g.read s = .ok none := by
        by_contra hspeaks
        have hlater := hfirst g hspeaks hsame
        rw [List.idxOf_cons_self] at hlater
        exact Nat.not_lt_zero _ hlater
      rw [search, hsilent]
      refine ih (List.mem_of_ne_of_mem (Ne.symm hsame) hmem) fun f' hf' hne => ?_
      have hg : g ≠ f' := by
        rintro rfl
        exact hf' hsilent
      have hlater := hfirst f' hf' hne
      rwa [List.idxOf_cons_ne _ hsame, List.idxOf_cons_ne _ hg, Nat.succ_lt_succ_iff] at hlater

theorem exists_of_search (h : search s order = .ok (some m)) :
    ∃ f ∈ order, f.read s = .ok (some m) := by
  induction order with
  | nil => cases h
  | cons f order ih =>
      rw [search] at h
      split at h
      · obtain ⟨g, hg, hread⟩ := ih h
        exact ⟨g, List.mem_cons_of_mem _ hg, hread⟩
      · exact ⟨f, List.mem_cons_self, h⟩

section Unambiguous

variable (hconst : ¬ IsConstEnum s)

include hconst

/-- Of the readers with something to say, one counts, and it comes before all others as soon as
re-exports come before lists. -/
theorem exists_first (hf : f.read s ≠ .ok none) : ∃ first : Reader, first.read s ≠ .ok none ∧
    ∀ g : Reader, g.read s ≠ .ok none → g ≠ first → first = .reexport ∧ g = .localExports := by
  by_cases hreexport : read s .reexport = .ok none
  · refine ⟨f, hf, fun g hg hne => ?_⟩
    rcases eq_or_of_read hf hg with h | (⟨rfl, -⟩ | ⟨-, rfl⟩) | ⟨-, h⟩
    · exact absurd h.symm hne
    · exact absurd hreexport hf
    · exact absurd hreexport hg
    · exact absurd h hconst
  · refine ⟨.reexport, hreexport, fun g hg hne => ?_⟩
    rcases eq_or_of_read hreexport hg with h | (⟨-, rfl⟩ | ⟨h, -⟩) | ⟨-, h⟩
    · exact absurd h.symm hne
    · exact ⟨rfl, rfl⟩
    · cases h
    · exact absurd h hconst

section Complete

variable (hall : ∀ f, f ∈ order) (hlists : order.idxOf .reexport < order.idxOf .localExports)

include hall hlists

theorem search_eq {order' : List Reader} (hall' : ∀ f, f ∈ order')
    (hlists' : order'.idxOf .reexport < order'.idxOf .localExports) :
    search s order = search s order' := by
  by_cases hsilent : ∀ f : Reader, f.read s = .ok none
  · rw [search_of_silent fun f _ => hsilent f, search_of_silent fun f _ => hsilent f]
  obtain ⟨f, hf⟩ := not_forall.1 hsilent
  obtain ⟨first, hspeaks, hfirst⟩ := exists_first hconst hf
  rw [search_of_first hspeaks (hall first), search_of_first hspeaks (hall' first)]
  · intro g hg hne
    obtain ⟨rfl, rfl⟩ := hfirst g hg hne
    exact hlists'
  · intro g hg hne
    obtain ⟨rfl, rfl⟩ := hfirst g hg hne
    exact hlists

theorem search_of_accepts? (h : f.accepts? s = some m) : search s order = .ok (some m) := by
  rw [accepts?_eq_some_iff] at h
  have hf : f.read s ≠ .ok none := by simp [h]
  rw [← h]
  refine search_of_first hf (hall f) fun g hg hne => ?_
  rcases eq_or_of_read hf hg with hsame | (⟨rfl, rfl⟩ | ⟨rfl, rfl⟩) | ⟨-, henum⟩
  · exact absurd hsame.symm hne
  · exact hlists
  · exact absurd (read_reexport_of_local h) hg
  · exact absurd henum hconst

end Complete

theorem findSome?_accepts? (hall : ∀ f, f ∈ order) (hf : f.accepts? s = some m) :
    order.findSome? (·.accepts? s) = some m := by
  cases hfound : order.findSome? (·.accepts? s) with
  | none => rw [List.findSome?_eq_none_iff.1 hfound f (hall f)] at hf; cases hf
  | some m' =>
      obtain ⟨g, -, hg⟩ := List.exists_of_findSome?_eq_some hfound
      rcases eq_of_accepts? hf hg with rfl | ⟨-, henum⟩
      · rw [← hf, hg]
      · exact absurd henum hconst

end Unambiguous

def usual : List Reader := [.reexport, .declaration, .defaultExport, .localExports, .value]

theorem mem_usual (f : Reader) : f ∈ usual := by
  cases f <;> decide

end Reader

/-! ## Meanings -/

theorem Statement.meaning_eq (s : Statement) :
    s.meaning.map Meaning.plain = Reader.meaning s.text Reader.usual := by
  rw [Statement.meaning, Reader.meaning, Reader.usual]
  simp only [Reader.search, Reader.read]
  cases Reexport.parse? s.text with
  | error e => rfl
  | ok taken? =>
  cases taken? with
  | some taken => rfl
  | none =>
  cases Head.parse? s.text with
  | some head => rfl
  | none =>
  cases LocalExport.defaultName? s.text with
  | some name => rfl
  | none =>
  cases hempty : LocalExport.isEmpty s.text with
  | true => rw [LocalExport.bindings?_of_isEmpty hempty]; rfl
  | false =>
  cases LocalExport.bindings? s.text with
  | error e => rfl
  | ok bindings? =>
  cases bindings? with
  | some bindings => rfl
  | none =>
  cases ValueDeclaration.name? s.text with
  | some name => rfl
  | none => rfl

theorem Reader.exists_accepts?_of_meaning {order : List Reader} {m : Meaning}
    (h : meaning s order = .ok m) : ∃ f : Reader, f.accepts? s = some m := by
  rw [meaning] at h
  split at h
  · cases h
  next hsearch =>
    obtain ⟨f, -, hread⟩ := exists_of_search hsearch
    cases h
    exact ⟨f, accepts?_eq_some_iff.2 hread⟩
  · cases h

theorem Reader.meaning_of_accepts? {s : Statement} (hconst : ¬ IsConstEnum s.text) {f : Reader}
    {m : Meaning} (h : f.accepts? s.text = some m) : s.meaning.map Meaning.plain = .ok m := by
  rw [s.meaning_eq, meaning, search_of_accepts? hconst mem_usual (by decide) h]

/-- At most one reader accepts a statement that declares no constant enumeration, and only the
reader of lists accepts an empty one.  So the order of the readers does not decide what a statement
means: each order finds the meaning where a failing reader is passed over, finds no other one where
a failure ends the search, and has the same failures if it looks for re-exports before lists. -/
theorem Statement.readers_agree (s : Statement) :
    (∀ (f g : Reader) (m m' : Meaning), f.accepts? s.text = some m → g.accepts? s.text = some m' →
      f = g ∨ (f = .declaration ∧ g = .value ∨ f = .value ∧ g = .declaration) ∧
        IsConstEnum s.text) ∧
    (LocalExport.isEmpty s.text = true → LocalExport.bindings? s.text = .ok (some []) ∧
      ∀ (f : Reader) (m : Meaning), f.accepts? s.text = some m → f = .localExports) ∧
    (¬ IsConstEnum s.text → ∀ order : List Reader, (∀ f, f ∈ order) →
      (∀ m, order.findSome? (·.accepts? s.text) = some m ↔
        s.meaning.map Meaning.plain = .ok m) ∧
      (∀ m, Reader.meaning s.text order = .ok m → s.meaning.map Meaning.plain = .ok m) ∧
      (order.idxOf .reexport < order.idxOf .localExports →
        Reader.meaning s.text order = s.meaning.map Meaning.plain)) := by
  refine ⟨fun f g m m' => Reader.eq_of_accepts?, fun hempty => ?_, fun hconst order hall => ?_⟩
  · have hbindings := LocalExport.bindings?_of_isEmpty hempty
    refine ⟨hbindings, fun f m hf => ?_⟩
    have hlocal : Reader.localExports.accepts? s.text = some (.localExports []) := by
      rw [Reader.accepts?_eq_some_iff, Reader.read, hbindings]
      rfl
    rcases Reader.eq_of_accepts? hf hlocal with h | ⟨⟨-, h⟩ | ⟨-, h⟩, -⟩
    · exact h
    · cases h
    · cases h
  refine ⟨fun m => ⟨fun hfound => ?_, fun hmeaning => ?_⟩, fun m hmeaning => ?_, fun hlists => ?_⟩
  · obtain ⟨f, -, hf⟩ := List.exists_of_findSome?_eq_some hfound
    exact Reader.meaning_of_accepts? hconst hf
  · rw [s.meaning_eq] at hmeaning
    obtain ⟨f, hf⟩ := Reader.exists_accepts?_of_meaning hmeaning
    exact Reader.findSome?_accepts? hconst hall hf
  · obtain ⟨f, hf⟩ := Reader.exists_accepts?_of_meaning hmeaning
    exact Reader.meaning_of_accepts? hconst hf
  · rw [s.meaning_eq, Reader.meaning, Reader.meaning,
      Reader.search_eq hconst hall hlists Reader.mem_usual (by decide)]

theorem Statement.readers_agree_marked :
    (∃ m m', Reader.declaration.accepts? "export declare const enum E \x7b\x7d".toList = some m ∧
      Reader.value.accepts? "export declare const enum E \x7b\x7d".toList = some m' ∧
      IsConstEnum "export declare const enum E \x7b\x7d".toList) ∧
    (LocalExport.isEmpty "export \x7b \x7d;".toList = true ∧
      LocalExport.bindings? "export \x7b \x7d;".toList = .ok (some []) ∧
      ∀ (f : Reader) (m : Meaning), f.accepts? "export \x7b \x7d;".toList = some m →
        f = .localExports) ∧
    (¬ IsConstEnum "export type \x7b A \x7d from './b'".toList ∧
      Reader.usual.reverse.findSome? (·.accepts? "export type \x7b A \x7d from './b'".toList) =
        some (.reexport ⟨.named [⟨"A", none⟩], "./b"⟩) ∧
      (Statement.mk "export type \x7b A \x7d from './b'".toList 0).meaning.map Meaning.plain =
        .ok (.reexport ⟨.named [⟨"A", none⟩], "./b"⟩)) := by
  have hempty : LocalExport.isEmpty "export \x7b \x7d;".toList = true := by decide +kernel
  have hhead : Reader.declaration.accepts? "export declare const enum E \x7b\x7d".toList =
      some (.declaration ⟨true, false, .enumeration, "E", " \x7b\x7d".toList⟩) := by decide +kernel
  have hvalue : Reader.value.accepts? "export declare const enum E \x7b\x7d".toList =
      some (.value "enum") := by decide +kernel
  have hconst : ¬ IsConstEnum "export type \x7b A \x7d from './b'".toList := by
    rintro ⟨head, hhead, -⟩
    rw [show Head.parse? "export type \x7b A \x7d from './b'".toList = none by decide +kernel]
      at hhead
    cases hhead
  have hfound :
      Reader.usual.reverse.findSome? (·.accepts? "export type \x7b A \x7d from './b'".toList) =
        some (.reexport ⟨.named [⟨"A", none⟩], "./b"⟩) := by decide +kernel
  have hall : ∀ f, f ∈ Reader.usual.reverse := fun f => List.mem_reverse.2 (Reader.mem_usual f)
  refine ⟨⟨_, _, hhead, hvalue, ?_⟩, ⟨hempty, (readers_agree ⟨_, 0⟩).2.1 hempty⟩,
    hconst, hfound, ?_⟩
  · rcases (readers_agree ⟨_, 0⟩).1 _ _ _ _ hhead hvalue with h | ⟨-, henum⟩
    · cases h
    · exact henum
  · exact (((readers_agree ⟨_, 0⟩).2.2 hconst _ hall).1 _).1 hfound

end Typings
