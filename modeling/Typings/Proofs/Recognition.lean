import Typings.Proofs.BindingList
import Typings.Statement.Meaning

/-!
# Readers of statements

Each form of statement that is no import has a reader of its own.  What one reader accepts no other
one does, but for constant enumerations, which are declarations of types and of values.
-/

namespace Typings

open Text

variable {s r : List Char}

/-! ## Lists and wildcards -/

/-- A list in braces or a wildcard, with the modifier `type` in front of it or without. -/
def Clause.lists (s : List Char) : Bool :=
  (skipTypeModifier s).head?.any fun c => c == '*' || c == '\x7b'

theorem takeWord?_of_mark (h : s.head?.any (fun c => c == '*' || c == '\x7b') = true) :
    takeWord? s = none := by
  rcases s with _ | ⟨c, s⟩
  · rfl
  · rw [List.head?_cons, Option.any_some, Bool.or_eq_true, beq_iff_eq, beq_iff_eq] at h
    rcases h with rfl | rfl <;> rfl

theorem Clause.takeWord?_of_lists (h : lists s = true) : takeWord? s = none ∨
    ∃ q, takeWord? s = some ("type".toList, q) ∧ takeWord? (skipBlanks q) = none := by
  rw [lists, skipTypeModifier] at h
  cases htype : eatKeyword? "type" s with
  | none =>
      rw [htype] at h
      exact .inl (takeWord?_of_mark h)
  | some q =>
      rw [htype] at h
      dsimp only at h
      have hword := (eatKeyword?_eq_some_iff (by decide)).1 htype
      split at h
      · have hnone := takeWord?_of_mark h
        rw [hword] at hnone
        cases hnone
      · exact .inr ⟨q, hword, takeWord?_of_mark h⟩

theorem Text.eatFirst?_of_lists {ks : List String} (h : Clause.lists s = true)
    (hks : ∀ k ∈ ks, isIdentifier k.toList = true) (htype : "type" ∉ ks) :
    eatFirst? ks s = none := by
  refine eatFirst?_eq_none hks fun k hk r hword => ?_
  rcases Clause.takeWord?_of_lists h with hnone | ⟨q, hq, -⟩
  · rw [hword] at hnone
    cases hnone
  · rw [hword] at hq
    have hsame := String.toList_injective (Prod.mk.inj (Option.some.inj hq)).1
    exact htype (hsame ▸ hk)

theorem Head.modifiers_ne_nil : ∀ k ∈ modifiers, k.toList ≠ [] := by decide

theorem Head.isIdentifier_modifiers : ∀ k ∈ modifiers, isIdentifier k.toList = true := by decide

theorem ValueDeclaration.isIdentifier_modifiers :
    ∀ k ∈ modifiers, isIdentifier k.toList = true := by
  decide

theorem ValueDeclaration.isIdentifier_keywords : ∀ k ∈ keywords, isIdentifier k.toList = true := by
  decide

section Listed

variable (hexport : eatKeyword? "export" s = some r) (hlists : Clause.lists (skipBlanks r) = true)

include hexport hlists

theorem Head.parse?_of_lists : parse? s = none := by
  have hnone := takeKeywords_of_none (by decide)
    (Text.eatFirst?_of_lists hlists isIdentifier_modifiers (by decide))
  simp only [parse?, hexport, Option.getD_some, hnone]
  rcases Clause.takeWord?_of_lists hlists with hword | ⟨q, hword, hname⟩
  · rw [hword]
    rfl
  · rw [hword]
    simp [hname]

theorem LocalExport.defaultName?_of_lists : defaultName? s = none := by
  have hdefault : eatKeyword? "default" (skipBlanks r) = none := by
    rcases Clause.takeWord?_of_lists hlists with hword | ⟨q, hword, -⟩
    · exact eatKeyword?_of_no_word (by decide) hword
    · exact eatKeyword?_of_word (by decide) hword (by decide)
  simp [defaultName?, hexport, hdefault]

theorem ValueDeclaration.name?_of_lists : name? s = none := by
  have hfirst := eatFirst?_of_eatKeyword? isIdentifier_modifiers (by decide) hexport
  have hnone := takeKeywords_of_none (by decide)
    (Text.eatFirst?_of_lists hlists isIdentifier_modifiers (by decide))
  have hkeyword := Text.eatFirst?_of_lists hlists isIdentifier_keywords (by decide)
  simp [name?, takeKeywords_of_some hfirst, hnone, hkeyword]

end Listed

theorem Reexport.lists_of_parse? (h : parse? s ≠ .ok none) :
    ∃ r, eatKeyword? "export" s = some r ∧ Clause.lists (skipBlanks r) = true := by
  rw [parse?] at h
  split at h
  · exact absurd rfl h
  next r hexport =>
    refine ⟨r, hexport, ?_⟩
    rw [Clause.lists]
    generalize Clause.skipTypeModifier (skipBlanks r) = t at h ⊢
    unfold takeClause at h
    split at h
    next hclause =>
      split at hclause
      · rfl
      · rfl
      · cases hclause
    · exact absurd rfl h
    next hclause =>
      split at hclause
      · rfl
      · rfl
      · cases hclause

theorem LocalExport.lists_of_bindings? (h : bindings? s ≠ .ok none) :
    ∃ r, eatKeyword? "export" s = some r ∧ Clause.lists (skipBlanks r) = true := by
  rw [bindings?] at h
  split at h
  · exact absurd rfl h
  next r hexport =>
    refine ⟨r, hexport, ?_⟩
    rw [Clause.lists]
    dsimp only at h
    split at h
    next hbrace => rw [beq_iff_eq.1 hbrace]; rfl
    · exact absurd rfl h

theorem Reexport.parse?_of_bindings? {bindings : List Binding}
    (h : LocalExport.bindings? s = .ok (some bindings)) : parse? s = .ok none := by
  rw [LocalExport.bindings?] at h
  rw [parse?]
  split at h
  · cases h
  next r hexport =>
    dsimp only at h
    generalize Clause.skipTypeModifier (skipBlanks r) = t at h ⊢
    split at h
    next hbrace =>
      obtain ⟨tail, rfl⟩ := List.head?_eq_some_iff.1 (beq_iff_eq.1 hbrace)
      rw [takeClause]
      split at h
      · cases h
      next found rest htake =>
        split at h
        next hend =>
          rw [htake]
          simp only [Except.map]
          rw [eatKeyword?_of_no_word (by decide) (Clause.takeWord?_of_isEnd hend)]
        · cases h
    · cases h

/-! ## Default exports -/

def EndsSoon (s : List Char) : Prop :=
  takeWord? s = none ∨ ∃ w rest, takeWord? s = some (w, rest) ∧ Clause.isEnd rest = true

theorem Clause.skip_star_of_isEnd {s : List Char} (h : isEnd s = true) : skip '*' s = s := by
  rcases s with _ | ⟨c, t⟩
  · rfl
  · by_cases hc : c = '*'
    · subst hc
      cases h
    · rw [skip, eat?, if_neg (by simpa using hc)]
      rfl

theorem EndsSoon.takeKeywords {ks : List String} (h : EndsSoon s)
    (hks : ∀ k ∈ ks, isIdentifier k.toList = true) (proper : ∀ k ∈ ks, k.toList ≠ []) :
    EndsSoon (Text.takeKeywords ks proper s).2 := by
  cases hfirst : eatFirst? ks s with
  | none => rwa [takeKeywords_of_none _ hfirst]
  | some found =>
      obtain ⟨k, rest⟩ := found
      obtain ⟨-, hword⟩ := (eatFirst?_eq_some_iff hks).1 hfirst
      obtain hnone | ⟨w, rest', hlast, hend⟩ := h
      · rw [hword] at hnone
        cases hnone
      · rw [hword] at hlast
        obtain ⟨-, rfl⟩ := Prod.mk.inj (Option.some.inj hlast)
        have hnone := Clause.takeWord?_of_isEnd hend
        rw [takeKeywords_of_some hfirst, takeKeywords_of_none _
          (eatFirst?_eq_none hks fun k _ r hk => by rw [hnone] at hk; cases hk)]
        exact .inl hnone

theorem LocalExport.of_defaultName? {name : String} (h : defaultName? s = some name) :
    ∃ r q, eatKeyword? "export" s = some r ∧ eatKeyword? "default" (skipBlanks r) = some q ∧
      EndsSoon (skipBlanks q) := by
  simp only [defaultName?, Option.bind_eq_bind, Option.bind_eq_some_iff, Prod.exists] at h
  obtain ⟨r, hexport, q, hdefault, w, rest, hword, hend⟩ := h
  refine ⟨r, q, hexport, hdefault, .inr ⟨w, rest, hword, ?_⟩⟩
  split at hend
  next h => exact h
  · cases hend

section Default

variable {q : List Char} (hexport : eatKeyword? "export" s = some r)
  (hdefault : eatKeyword? "default" (skipBlanks r) = some q) (hend : EndsSoon (skipBlanks q))

include hexport hdefault hend

theorem Head.parse?_of_default : parse? s = none := by
  have hfirst := eatFirst?_of_eatKeyword? isIdentifier_modifiers (by decide) hdefault
  simp only [parse?, hexport, Option.getD_some, takeKeywords_of_some hfirst]
  obtain hword | ⟨w, rest, hword, hlast⟩ :=
    hend.takeKeywords isIdentifier_modifiers (by decide)
  · rw [hword]
    rfl
  · rw [hword]
    simp [Clause.takeWord?_of_isEnd hlast]

theorem ValueDeclaration.name?_of_default : name? s = none := by
  have hfirst := eatFirst?_of_eatKeyword? isIdentifier_modifiers (by decide) hexport
  have hsecond := eatFirst?_of_eatKeyword? isIdentifier_modifiers (by decide) hdefault
  simp only [name?, takeKeywords_of_some hfirst, takeKeywords_of_some hsecond]
  cases hkeyword : eatFirst? keywords
      (Text.takeKeywords modifiers (by decide) (skipBlanks q)).2 with
  | none => rfl
  | some found =>
      obtain ⟨k, rest⟩ := found
      obtain ⟨-, hword⟩ := (eatFirst?_eq_some_iff isIdentifier_keywords).1 hkeyword
      obtain hnone | ⟨w, rest', hlast, hlast'⟩ :=
        hend.takeKeywords isIdentifier_modifiers (by decide)
      · rw [hword] at hnone
        cases hnone
      · rw [hword] at hlast
        obtain ⟨-, rfl⟩ := Prod.mk.inj (Option.some.inj hlast)
        simp [Clause.skip_star_of_isEnd hlast', Clause.takeWord?_of_isEnd hlast']

end Default

/-! ## Declarations of types and of values -/

theorem DeclarationKind.keyword_of_ofKeyword? {word : String} {kind : DeclarationKind}
    (h : ofKeyword? word = some kind) : kind.keyword = word := by
  have hfound := List.find?_some (p := fun kind => keyword kind == word) h
  exact beq_iff_eq.1 hfound

def Head.found (statement : List Char) : List String :=
  (Text.takeKeywords modifiers modifiers_ne_nil
    (skipBlanks ((eatKeyword? "export" statement).getD statement))).1

def ValueDeclaration.firstWords : List String := modifiers ++ keywords

theorem ValueDeclaration.keyword_notMem_firstWords (kind : DeclarationKind) :
    kind.keyword ∉ firstWords := by
  cases kind <;> decide

theorem ValueDeclaration.exists_firstWord {pv : ∀ k ∈ modifiers, k.toList ≠ []} {k : String}
    {rest : List Char}
    (h : eatFirst? keywords (Text.takeKeywords modifiers pv s).2 = some (k, rest)) :
    ∃ word r, takeWord? s = some (word.toList, r) ∧ word ∈ firstWords := by
  cases hfirst : eatFirst? modifiers s with
  | none =>
      rw [takeKeywords_of_none _ hfirst] at h
      obtain ⟨hk, hword⟩ := (eatFirst?_eq_some_iff isIdentifier_keywords).1 h
      exact ⟨k, rest, hword, List.mem_append_right _ hk⟩
  | some found =>
      obtain ⟨hk, hword⟩ := (eatFirst?_eq_some_iff isIdentifier_modifiers).1 hfirst
      exact ⟨found.1, found.2, hword, List.mem_append_left _ hk⟩

theorem Head.const_mem {pm : ∀ k ∈ modifiers, k.toList ≠ []}
    {pv : ∀ k ∈ ValueDeclaration.modifiers, k.toList ≠ []} {kind : DeclarationKind}
    {rest rest' : List Char} {k : String}
    (hkind : takeWord? (Text.takeKeywords modifiers pm s).2 = some (kind.keyword.toList, rest))
    (hvalue : eatFirst? ValueDeclaration.keywords
      (Text.takeKeywords ValueDeclaration.modifiers pv s).2 = some (k, rest')) :
    "const" ∈ (Text.takeKeywords modifiers pm s).1 := by
  obtain ⟨first, r, hfirst, hmem⟩ := ValueDeclaration.exists_firstWord hvalue
  fun_induction Text.takeKeywords modifiers pm s generalizing first r with
  | case1 s hnone =>
      rw [hfirst] at hkind
      have hsame := String.toList_injective (Prod.mk.inj (Option.some.inj hkind)).1
      exact absurd (hsame ▸ hmem) (ValueDeclaration.keyword_notMem_firstWords kind)
  | case2 s word r' htake _ _ more after hmore ih =>
      obtain ⟨hword, hsome⟩ := (eatFirst?_eq_some_iff isIdentifier_modifiers).1 htake
      rw [hsome] at hfirst
      obtain ⟨hsame, rfl⟩ := Prod.mk.inj (Option.some.inj hfirst)
      have hsame := String.toList_injective hsame
      subst hsame
      rw [hmore] at ih
      have hgoes : word ∈ ValueDeclaration.modifiers → "const" ∈ word :: more := by
        intro hmodifier
        have hboth : eatFirst? ValueDeclaration.modifiers s = some (word, r') :=
          (eatFirst?_eq_some_iff ValueDeclaration.isIdentifier_modifiers).2 ⟨hmodifier, hsome⟩
        rw [takeKeywords_of_some hboth] at hvalue
        obtain ⟨first', r'', hfirst', hmem'⟩ := ValueDeclaration.exists_firstWord hvalue
        exact List.mem_cons_of_mem _ (ih hkind hvalue first' r'' hfirst' hmem')
      simp only [modifiers, List.mem_cons, List.not_mem_nil, or_false] at hword
      obtain rfl | rfl | rfl | rfl := hword
      · exact hgoes (by decide)
      · exact absurd hmem (by decide)
      · exact hgoes (by decide)
      · exact List.mem_cons_self

theorem ValueDeclaration.of_name? {name : String} (h : name? s = some name) :
    ∃ k rest,
      eatFirst? keywords (Text.takeKeywords modifiers (by decide) s).2 = some (k, rest) := by
  simp only [name?, Option.bind_eq_bind, Option.bind_eq_some_iff, Prod.exists] at h
  obtain ⟨k, rest, hkeyword, -⟩ := h
  exact ⟨k, rest, hkeyword⟩

theorem skipBlanks_of_takeWord? {w : List Char} (h : takeWord? s = some (w, r)) :
    skipBlanks s = s := by
  rw [takeWord?] at h
  split at h
  next hstart =>
    obtain ⟨c, hhead, hc⟩ := (Option.any_eq_true _ _).1 hstart
    obtain ⟨tail, rfl⟩ := List.head?_eq_some_iff.1 hhead
    exact List.dropWhile_cons_of_neg (by simp [isBlank_of_isWord hc])
  · cases h

/-- Only a constant enumeration is a declaration of a type and of a value. -/
theorem Head.const_of_value {head : Head} {name : String} (hhead : parse? s = some head)
    (hvalue : ValueDeclaration.name? s = some name) :
    head.kind = .enumeration ∧ "const" ∈ found s := by
  obtain ⟨k, rest, hkeyword⟩ := ValueDeclaration.of_name? hvalue
  obtain ⟨first, behind, hfirst, -⟩ := ValueDeclaration.exists_firstWord hkeyword
  rw [parse?] at hhead
  simp only [Option.bind_eq_bind, Option.bind_eq_some_iff, Prod.exists] at hhead
  obtain ⟨word, after, hword, kind, hkind, hhead⟩ := hhead
  have hname := congrArg String.toList (DeclarationKind.keyword_of_ofKeyword? hkind)
  rw [String.toList_ofList] at hname
  have hconst : "const" ∈ found s := by
    rw [← hname] at hword
    cases hexport : eatKeyword? "export" s with
    | none =>
        rw [hexport, Option.getD_none, skipBlanks_of_takeWord? hfirst] at hword
        rw [found, hexport, Option.getD_none, skipBlanks_of_takeWord? hfirst]
        exact const_mem hword hkeyword
    | some r =>
        have hexported :=
          eatFirst?_of_eatKeyword? ValueDeclaration.isIdentifier_modifiers (by decide) hexport
        rw [takeKeywords_of_some hexported] at hkeyword
        rw [hexport, Option.getD_some] at hword
        rw [found, hexport, Option.getD_some]
        exact const_mem hword hkeyword
  refine ⟨?_, hconst⟩
  rw [found] at hconst
  split at hhead
  · cases hhead
  next hguard =>
    obtain ⟨⟨name, body⟩, -, heq⟩ := Option.bind_eq_some_iff.1 hhead
    simpa [hconst, ← Option.some.inj heq] using hguard

/-! ## The empty list -/

theorem Clause.skipTypeModifier_brace (t : List Char) :
    skipTypeModifier ('\x7b' :: t) = '\x7b' :: t := by
  rw [skipTypeModifier, eatKeyword?_of_no_word (by decide) (takeWord?_of_mark rfl)]

theorem LocalExport.bindings?_of_isEmpty (h : isEmpty s = true) :
    bindings? s = .ok (some []) := by
  simp only [isEmpty, Option.bind_eq_bind, Option.isSome_iff_exists, Option.bind_eq_some_iff] at h
  obtain ⟨_, r, hexport, t, hopen, u, hclose, hend⟩ := h
  have hisEnd : Clause.isEnd u = true := by
    split at hend
    next h => exact h
    · cases hend
  have hblanks : ∀ c ∈ t.takeWhile isBlank, isBlank c = true :=
    List.all_eq_true.1 List.all_takeWhile
  have ht : t = t.takeWhile isBlank ++ '\x7d' :: u := by
    conv_lhs => rw [← List.takeWhile_append_dropWhile (p := isBlank) (l := t)]
    rw [← eat?_eq_some_iff.1 hclose, skipBlanks]
  have htake := Binding.takeBindings_of_entries s .nil .nil hblanks u
  rw [List.append_nil, List.cons_append] at htake
  rw [bindings?, hexport]
  dsimp only
  rw [eat?_eq_some_iff.1 hopen, Clause.skipTypeModifier_brace, ht, htake]
  simp only [List.head?_cons, beq_self_eq_true, if_true, hisEnd]
  rfl

/-! ## Readers -/

/-- The readers of statements that are no imports, one for each form. -/
inductive Reader where
  | reexport
  | declaration
  | defaultExport
  | localExports
  | value
  deriving DecidableEq, Repr

namespace Reader

def read (statement : List Char) : Reader → Except Error (Option Meaning)
  | .reexport => (Reexport.parse? statement).map (·.map .reexport)
  | .declaration => .ok ((Head.parse? statement).map .declaration)
  | .defaultExport => .ok ((LocalExport.defaultName? statement).map .defaultExport)
  | .localExports => (LocalExport.bindings? statement).map (·.map .localExports)
  | .value => .ok ((ValueDeclaration.name? statement).map .value)

def accepts? (statement : List Char) (f : Reader) : Option Meaning :=
  (f.read statement).toOption.join

end Reader

def IsConstEnum (statement : List Char) : Prop :=
  ∃ head, Head.parse? statement = some head ∧ head.kind = .enumeration ∧
    "const" ∈ Head.found statement

namespace Reader

variable {f g : Reader} {m : Meaning}

theorem accepts?_eq_some_iff : f.accepts? s = some m ↔ f.read s = .ok (some m) := by
  rw [accepts?]
  cases f.read s <;> simp [Except.toOption]

theorem exists_of_map_ne {α : Type} {found : Option α} {k : α → Meaning}
    (h : (Except.ok (found.map k) : Except Error (Option Meaning)) ≠ .ok none) :
    ∃ a, found = some a := by
  cases found with
  | none => exact absurd rfl h
  | some a => exact ⟨a, rfl⟩

theorem read_of_lists (h : read s .reexport ≠ .ok none ∨ read s .localExports ≠ .ok none)
    (hreexport : f ≠ .reexport) (hlocal : f ≠ .localExports) : f.read s = .ok none := by
  obtain ⟨r, hexport, hlists⟩ :
      ∃ r, eatKeyword? "export" s = some r ∧ Clause.lists (skipBlanks r) = true := by
    rcases h with h | h
    · exact Reexport.lists_of_parse? fun hnone => h (by rw [read, hnone]; rfl)
    · exact LocalExport.lists_of_bindings? fun hnone => h (by rw [read, hnone]; rfl)
  cases f with
  | reexport => exact absurd rfl hreexport
  | localExports => exact absurd rfl hlocal
  | declaration => rw [read, Head.parse?_of_lists hexport hlists, Option.map_none]
  | defaultExport => rw [read, LocalExport.defaultName?_of_lists hexport hlists, Option.map_none]
  | value => rw [read, ValueDeclaration.name?_of_lists hexport hlists, Option.map_none]

theorem read_of_default (h : read s .defaultExport ≠ .ok none) (hf : f ≠ .defaultExport) :
    f.read s = .ok none := by
  obtain ⟨name, hname⟩ := exists_of_map_ne h
  obtain ⟨r, q, hexport, hdefault, hend⟩ := LocalExport.of_defaultName? hname
  cases f with
  | reexport =>
      by_contra hlist
      exact h (read_of_lists (.inl hlist) (by decide) (by decide))
  | localExports =>
      by_contra hlist
      exact h (read_of_lists (.inr hlist) (by decide) (by decide))
  | declaration => rw [read, Head.parse?_of_default hexport hdefault hend, Option.map_none]
  | defaultExport => exact absurd rfl hf
  | value => rw [read, ValueDeclaration.name?_of_default hexport hdefault hend, Option.map_none]

theorem isConstEnum_of_read (hdeclaration : read s .declaration ≠ .ok none)
    (hvalue : read s .value ≠ .ok none) : IsConstEnum s := by
  obtain ⟨head, hhead⟩ := exists_of_map_ne hdeclaration
  obtain ⟨name, hname⟩ := exists_of_map_ne hvalue
  exact ⟨head, hhead, Head.const_of_value hhead hname⟩

/-- A reader that accepts a statement or fails on it leaves it to no other one, but both readers of
lists look at a list, and a constant enumeration is declared twice. -/
theorem eq_or_of_read (hf : f.read s ≠ .ok none) (hg : g.read s ≠ .ok none) :
    f = g ∨ (f = .reexport ∧ g = .localExports ∨ f = .localExports ∧ g = .reexport) ∨
      (f = .declaration ∧ g = .value ∨ f = .value ∧ g = .declaration) ∧ IsConstEnum s := by
  by_cases hlists : read s .reexport ≠ .ok none ∨ read s .localExports ≠ .ok none
  · have hkind : ∀ {f : Reader}, f.read s ≠ .ok none → f = .reexport ∨ f = .localExports := by
      intro f hf
      by_contra hother
      rw [not_or] at hother
      exact hf (read_of_lists hlists hother.1 hother.2)
    obtain rfl | rfl := hkind hf <;> obtain rfl | rfl := hkind hg <;> simp
  rw [not_or, not_not, not_not] at hlists
  by_cases hdefault : read s .defaultExport = .ok none
  · have hkind : ∀ {f : Reader}, f.read s ≠ .ok none → f = .declaration ∨ f = .value := by
      intro f hf
      cases f with
      | reexport => exact absurd hlists.1 hf
      | declaration => exact .inl rfl
      | defaultExport => exact absurd hdefault hf
      | localExports => exact absurd hlists.2 hf
      | value => exact .inr rfl
    obtain rfl | rfl := hkind hf <;> obtain rfl | rfl := hkind hg
    · exact .inl rfl
    · exact .inr (.inr ⟨.inl ⟨rfl, rfl⟩, isConstEnum_of_read hf hg⟩)
    · exact .inr (.inr ⟨.inr ⟨rfl, rfl⟩, isConstEnum_of_read hg hf⟩)
    · exact .inl rfl
  · have hkind : ∀ {f : Reader}, f.read s ≠ .ok none → f = .defaultExport := by
      intro f hf
      by_contra hother
      exact hf (read_of_default hdefault hother)
    exact .inl ((hkind hf).trans (hkind hg).symm)

theorem read_reexport_of_local (h : read s .localExports = .ok (some m)) :
    read s .reexport = .ok none := by
  rw [read] at h
  cases hbindings : LocalExport.bindings? s with
  | error e => rw [hbindings] at h; cases h
  | ok found =>
      cases found with
      | none => rw [hbindings] at h; cases h
      | some bindings => rw [read, Reexport.parse?_of_bindings? hbindings]; rfl

theorem eq_of_accepts? {m' : Meaning} (hf : f.accepts? s = some m) (hg : g.accepts? s = some m') :
    f = g ∨ (f = .declaration ∧ g = .value ∨ f = .value ∧ g = .declaration) ∧ IsConstEnum s := by
  rw [accepts?_eq_some_iff] at hf hg
  rcases eq_or_of_read (by rw [hf]; simp) (by rw [hg]; simp) with h | h | h
  · exact .inl h
  · rcases h with ⟨rfl, rfl⟩ | ⟨rfl, rfl⟩
    · rw [read_reexport_of_local hg] at hf
      cases hf
    · rw [read_reexport_of_local hf] at hg
      cases hg
  · exact .inr h

end Reader

end Typings
