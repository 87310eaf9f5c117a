import Typings.Proofs.Shapes
import Typings.Proofs.Written

/-!
# Reading the tokens of what an expression is written as

A token of a written expression has the shape that the expression has, and the body of a written
object is scanned into its properties.
-/

namespace Typings

open Typings.Span (Neutral)

/-! ## Shapes -/

/-- A name that is read as the name of a type wherever it stands. -/
structure IsTypeName (name : String) : Prop where
  identifier : Text.isIdentifier name.toList = true
  noDigit : Text.startsDigit name.toList = false
  noPrimitive : Primitive.ofKeyword? name = none
  noLiteral : name ≠ "true" ∧ name ≠ "false"

namespace Term

variable {name : String} {body : List Char}

theorem wordShape_of_typeName (h : IsTypeName name) {s : List Char}
    (hs : Text.endsName s = true) :
    wordShape none (name.toList ++ s) = nameShape (name.toList ++ s) := by
  have hword : ∀ word : String, Text.isIdentifier word.toList = true →
      word.toList = name.toList ++ s → word = name := by
    intro word hword heq
    have hnil : s = [] := by
      cases s with
      | nil => rfl
      | cons c s =>
          have hc : Text.isWord c = true :=
            Text.isWord_of_isIdentifier hword c (by simp [heq])
          simp [Text.endsName, hc] at hs
    rw [hnil, List.append_nil] at heq
    exact String.toList_inj.1 heq
  have hkeyword : ∀ kind : Primitive, name.toList ++ s ≠ kind.keyword.toList := by
    intro kind heq
    have hname := hword kind.keyword (by cases kind <;> rfl) heq.symm
    have hfound := Primitive.ofKeyword?_keyword kind
    rw [hname, h.noPrimitive] at hfound
    cases hfound
  have htrue : name.toList ++ s ≠ "true".toList := fun heq =>
    h.noLiteral.1 (hword "true" rfl heq.symm).symm
  have hfalse : name.toList ++ s ≠ "false".toList := fun heq =>
    h.noLiteral.2 (hword "false" rfl heq.symm).symm
  have hdigit : ((name.toList ++ s).head?.any fun c => c.isDigit || c == '-') = false := by
    have hdigit := h.noDigit
    obtain ⟨c, t, ht, hc⟩ := Text.exists_cons_of_isIdentifier h.identifier
    have hminus : (c == '-') = false := by simpa using Text.ne_of_isWord hc rfl
    rw [ht] at hdigit ⊢
    have hcdigit : c.isDigit = false := hdigit
    simp [hcdigit, hminus]
  exact wordShape_eq_nameShape hkeyword htrue hfalse (.inl hdigit) (by simp)

theorem shape_of_typeName (h : IsTypeName name) {s : List Char} (hs : Text.endsName s = true)
    (hlast : (name.toList ++ s).getLast? ≠ some ']') :
    shape none (name.toList ++ s) = nameShape (name.toList ++ s) := by
  have htake : Span.take? (name.toList ++ s) = .ok none := by
    obtain ⟨c, t, ht, hc⟩ := Text.exists_cons_of_isIdentifier h.identifier
    rw [ht, List.cons_append]
    simp only [Span.take?, Text.closer?_of_isWord hc]
  rw [shape_eq, arrayElement?_eq_none hlast, htake]
  exact wordShape_of_typeName h hs

theorem shape_name (h : IsTypeName name) : shape none name.toList = .named name none := by
  have hne := Text.ne_nil_of_isIdentifier h.identifier
  have hlast : (name.toList ++ []).getLast? ≠ some ']' := by
    rw [List.append_nil, List.getLast?_eq_some_getLast hne]
    intro hbracket
    exact Text.ne_of_isWord (Text.isWord_of_isIdentifier h.identifier _ (List.getLast_mem hne)) rfl
      (Option.some.inj hbracket)
  have hshape := shape_of_typeName h rfl hlast
  have htake := Text.takeName?_append_of_name h.identifier (show Text.endsName [] = true from rfl)
  rw [nameShape_eq, htake, List.append_nil] at hshape
  simpa using hshape

theorem shape_applied (h : IsTypeName name) (hbody : Neutral body)
    (hargument : Span.arguments body = .ok [body]) :
    shape none (name.toList ++ '<' :: body ++ ['>']) = .named name (some [body]) := by
  have hspan := Span.take?_enclosed (show Span.closer? '<' = some '>' from rfl) rfl hbody []
  have hinner : Span.inner ('<' :: body ++ ['>']) = body := by simp [Span.inner]
  have hends : Text.endsName ('<' :: body ++ ['>']) = true := rfl
  have hhead : ('<' :: body ++ ['>']).head? = some '<' := rfl
  have hlast : (name.toList ++ ('<' :: body ++ ['>'])).getLast? ≠ some ']' := by
    rw [← List.append_assoc, List.getLast?_concat]
    decide
  rw [List.append_assoc]
  generalize '<' :: body ++ ['>'] = group at *
  have hne : group ≠ [] := by
    rintro rfl
    cases hhead
  rw [shape_of_typeName h hends hlast, nameShape_eq,
    Text.takeName?_append_of_name h.identifier hends]
  simp only [if_neg hne, hspan, hhead, hinner, hargument, and_self, if_true, String.ofList_toList]

theorem shape_array {element : List Char} (h : element ≠ []) :
    shape none (element ++ ['[', ']']) = .array element := by
  rw [shape, arrayElement?_eq_some_iff.2 ⟨rfl, h⟩]

theorem shape_group (hbody : Neutral body) : shape none ('(' :: body ++ [')']) = .group body := by
  have htake := Span.take?_enclosed (show Span.closer? '(' = some ')' from rfl) rfl hbody []
  rw [shape_of_take? none htake (by rw [List.getLast?_concat]; decide)]
  simp [spanShape, Span.inner]

theorem shape_braces (hbody : Neutral body) :
    shape none ('\x7b' :: body ++ ['\x7d']) = .object ('\x7b' :: body ++ ['\x7d']) := by
  have htake := Span.take?_enclosed (show Span.closer? '\x7b' = some '\x7d' from rfl) rfl hbody []
  rw [shape_of_take? none htake (by rw [List.getLast?_concat]; decide)]
  rfl

end Term

/-! ## Bodies of objects -/

namespace Object

variable {key s : List Char}

def startsMark (s : List Char) : Prop := ∃ rest, s = ':' :: rest ∨ s = '?' :: rest

theorem startsWord_of_startsMark (h : startsMark s) : Text.startsWord s = false := by
  obtain ⟨rest, rfl | rfl⟩ := h <;> rfl

theorem skipModifier_key (hkey : Text.isIdentifier key = true) (hs : startsMark s) :
    skipModifier (key ++ s) = key ++ s := by
  unfold skipModifier
  rcases h : Text.eatKeyword? "readonly" (key ++ s) with _ | rest
  · rfl
  · simp only [Text.eatKeyword?, Option.filter_eq_some_iff, Text.stripLead?_eq_some_iff,
      Bool.not_eq_true'] at h
    obtain ⟨happend, hrest⟩ := h
    have hsame : key = "readonly".toList := by
      rw [← Text.takeWhile_append_of_name hkey (startsWord_of_startsMark hs), happend,
        Text.takeWhile_append_of_name (by decide) hrest]
    obtain rfl : s = rest := by
      rw [hsame] at happend
      exact List.append_cancel_left happend
    obtain ⟨behind, rfl | rfl⟩ := hs <;> rfl

theorem head_key (hkey : Text.isIdentifier key = true) (optional : Bool) (s : List Char) :
    head (key ++ ((if optional then ['?'] else []) ++ ':' :: s)) =
      .ok (.named (String.ofList key) optional, s) := by
  have hnamed : namedHead (key ++ ((if optional then ['?'] else []) ++ ':' :: s)) =
      .ok (.named (String.ofList key) optional, s) := by
    have hmark : startsMark ((if optional then ['?'] else []) ++ ':' :: s) := by
      cases optional
      · exact ⟨s, .inl rfl⟩
      · exact ⟨':' :: s, .inr rfl⟩
    rw [namedHead, skipModifier_key hkey hmark,
      Text.takeWord?_append_of_name hkey (startsWord_of_startsMark hmark)]
    cases optional <;> rfl
  obtain ⟨c, tail, rfl, hc⟩ := Text.exists_cons_of_isIdentifier hkey
  have hquote : Span.isQuote c = false := by
    simp [Span.isQuote, Text.ne_of_isWord hc (d := '"') rfl, Text.ne_of_isWord hc (d := '\'') rfl]
  have hbracket : (c == '[') = false := by simpa using Text.ne_of_isWord hc rfl
  rw [List.cons_append] at hnamed ⊢
  simp only [head, hbracket, hquote, hc, Bool.false_eq_true, if_false, if_true]
  exact hnamed

theorem head_index (s : List Char) :
    head ('[' :: "key: string".toList ++ ']' :: ':' :: s) = .ok (.dynamic, s) := by
  have hkey : Neutral "key: string".toList := Span.neutral_of_plain rfl
  have htake := Span.take?_enclosed (show Span.closer? '[' = some ']' from rfl) rfl hkey (':' :: s)
  have hskip : skipSpan ('[' :: "key: string".toList ++ ']' :: ':' :: s) = .ok (':' :: s) := by
    rw [skipSpan, htake]
  have hdynamic : dynamicHead ('[' :: "key: string".toList ++ ']' :: ':' :: s) =
      .ok (.dynamic, s) := by
    rw [dynamicHead, hskip]
    rfl
  exact hdynamic

theorem scanEntries_of_head {c : Char} (start : List Char) {tail rest after : List Char}
    {slot : Slot} {value : Tokens}
    (hc : Text.isBlank c = false ∧ c ≠ '\x7d' ∧ Tokens.isTerminator c = false)
    (hhead : head (c :: tail) = .ok (slot, rest)) (htake : Tokens.take rest = (.ok value, after)) :
    scanEntries start (c :: tail) =
      ⟨⟨slot, .ok value⟩ :: (scanEntries start after).entries,
        (scanEntries start after).outcome⟩ := by
  have hblanks : Text.skipBlanks (c :: tail) = c :: tail :=
    List.dropWhile_cons_of_neg (by simp [hc.1])
  rw [scanEntries_eq, hblanks]
  simp only [beq_iff_eq, if_neg hc.2.1, hc.2.2, Bool.false_eq_true, if_false, hhead, htake]

theorem scanEntries_blank {c : Char} (hc : Text.isBlank c = true) (start s : List Char) :
    scanEntries start (c :: s) = scanEntries start s := by
  rw [scanEntries_eq, scanEntries_eq start s, show Text.skipBlanks (c :: s) = Text.skipBlanks s from
    List.dropWhile_cons_of_pos hc]

end Object

namespace Expr

def entry (p : Property Expr) : Object.Entry := ⟨.named p.key p.optional, .ok p.value.level⟩

def dynamicEntry (e : Expr) : Object.Entry := ⟨.dynamic, .ok e.level⟩

variable {known : Identity → Prop}
  (hnames : ∀ target, known target → Text.isIdentifier target.name.toList = true)

include hnames

theorem take_value {e : Expr} (he : e.Structural known) (s : List Char) :
    Tokens.take (' ' :: e.write ++ ';' :: s) = (.ok e.level, s) := by
  rw [Tokens.take, List.cons_append, Tokens.scan_blank rfl]
  exact scan_write hnames he _ (Tokens.stops_semicolon s)

theorem scanEntries_writeProperties (start s : List Char) {properties : List (Property Expr)}
    (hkeys : ∀ p ∈ properties, Text.isIdentifier p.key.toList = true)
    (hvalues : ∀ p ∈ properties, p.value.Structural known) :
    Object.scanEntries start (writeProperties properties ++ s) =
      ⟨properties.map entry ++ (Object.scanEntries start s).entries,
        (Object.scanEntries start s).outcome⟩ := by
  induction properties with
  | nil => rfl
  | cons p ps ih =>
      rw [List.forall_mem_cons] at hkeys hvalues
      have hhead := Object.head_key hkeys.1 p.optional
        (' ' :: p.value.write ++ ';' :: ' ' :: (writeProperties ps ++ s))
      have htake := take_value hnames hvalues.1 (' ' :: (writeProperties ps ++ s))
      obtain ⟨c, tail, hkey, hc⟩ := Text.exists_cons_of_isIdentifier hkeys.1
      have hfront : Text.isBlank c = false ∧ c ≠ '\x7d' ∧ Tokens.isTerminator c = false :=
        ⟨Text.isBlank_of_isWord hc, Text.ne_of_isWord hc rfl, Text.isTerminator_of_isWord hc⟩
      rw [hkey, List.cons_append, ← hkey, String.ofList_toList] at hhead
      have hscan := Object.scanEntries_of_head start hfront hhead htake
      rw [Object.scanEntries_blank (c := ' ') rfl, ih hkeys.2 hvalues.2] at hscan
      rw [writeProperties_cons, hkey]
      simpa [entry] using hscan

theorem scan_object {properties : List (Property Expr)} {dynamic : Option Expr}
    (he : (object properties dynamic).Structural known) :
    Object.scan (object properties dynamic).write =
      ⟨properties.map entry ++ dynamic.toList.map dynamicEntry, .ok []⟩ := by
  cases he with
  | object hkeys _ hvalues hdynamic =>
      have hclose : ∀ start, Object.scanEntries start ['\x7d'] = ⟨[], .ok []⟩ := fun start => by
        rw [Object.scanEntries_eq]
        rfl
      have hscan : ∀ start, Object.scanEntries start (inside properties dynamic ++ ['\x7d']) =
          ⟨properties.map entry ++ dynamic.toList.map dynamicEntry, .ok []⟩ := by
        intro start
        cases dynamic with
        | none =>
            rw [inside]
            split
            next hnil =>
              subst hnil
              exact hclose start
            next =>
              rw [List.cons_append, Object.scanEntries_blank (c := ' ') rfl,
                scanEntries_writeProperties hnames start _ hkeys hvalues, hclose]
              rfl
        | some e =>
            have hhead := Object.head_index (' ' :: e.write ++ ';' :: ' ' :: ['\x7d'])
            have htake := take_value hnames (hdynamic e rfl) (' ' :: ['\x7d'])
            have hindex : Object.scanEntries start ('[' :: "key: string".toList ++
                ']' :: ':' :: (' ' :: e.write ++ ';' :: ' ' :: ['\x7d'])) =
                  ⟨[dynamicEntry e], .ok []⟩ := by
              have hfirst := Object.scanEntries_of_head start ⟨rfl, by decide, rfl⟩ hhead htake
              rw [Object.scanEntries_blank (c := ' ') rfl, hclose] at hfirst
              exact hfirst
            have hinside : inside properties (some e) ++ ['\x7d'] =
                ' ' :: (writeProperties properties ++ ('[' :: "key: string".toList ++
                  ']' :: ':' :: (' ' :: e.write ++ ';' :: ' ' :: ['\x7d']))) := by
              simp only [inside, List.append_assoc, List.cons_append, List.nil_append]
            rw [hinside, Object.scanEntries_blank (c := ' ') rfl,
              scanEntries_writeProperties hnames start _ hkeys hvalues, hindex]
            rfl
      rw [write_object, Object.scan, List.cons_append, Text.eat?_eq_some_iff.2 rfl]
      exact hscan _

end Expr

end Typings
