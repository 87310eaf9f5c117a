import Typings.Term.Parser
import Typings.Tokens.Front

/-!
# How long the texts inside a text are

What a level or a token holds is shorter than the level or the token itself: the characters that
set the parts apart are missing.
-/

namespace Typings

open scoped List

/-! ## Levels -/

namespace Tokens

def size (t : Tokens) : Nat := t.items.flatten.length + t.joiner.toList.length

def sizeOf : Except Error Tokens → Nat
  | .ok t => t.size
  | .error _ => 0

theorem size_scan_le (start s : List Char) (joiner : Option Joiner) :
    sizeOf (scan start s joiner).1 ≤ s.length + joiner.toList.length := by
  have hblanks := Text.length_skipBlanks_le s
  fun_induction scan start s joiner with
  | case1 s joiner rest => simp [sizeOf, size]
  | case2 s joiner found rest hlt _ _ _ ih =>
      have := ih (Text.length_skipBlanks_le rest)
      simp only [Option.toList_some, List.length_singleton] at this
      omega
  | case3 => simp [sizeOf]
  | case4 s joiner item rest hlt hfront _ level stop hscan ih =>
      have hrest := ih (Text.length_skipBlanks_le rest)
      have hitem := congrArg List.length
        (append_of_look ((sight_front _).symm.trans (congrArg Front.sight hfront)))
      rw [hscan] at hrest
      cases level with
      | error e => simp [sizeOf, Except.map]
      | ok t =>
          simp only [sizeOf, size, Except.map, List.flatten_cons, List.length_append] at *
          omega
  | case5 => simp [sizeOf]
  | case6 => simp [sizeOf]

theorem size_take_le (s : List Char) : sizeOf (take s).1 ≤ s.length := size_scan_le s s none

end Tokens

/-! ## Tokens -/

namespace Text

theorem trim_sublist (s : List Char) : trim s <+ s := by
  have hend := (List.dropWhile_sublist isSpace (l := (trimStart s).reverse)).reverse
  rw [List.reverse_reverse] at hend
  exact hend.trans (List.dropWhile_sublist isSpace)

end Text

namespace Span

theorem takeArgument_append {s a : List Char} {more : Option (List Char)}
    (h : takeArgument s = .ok (a, more)) :
    s = a ++ (more.map (',' :: ·)).getD [] := by
  fun_induction takeArgument s generalizing a with
  | case1 =>
      obtain ⟨rfl, rfl⟩ := Prod.mk.inj (Except.ok.inj h)
      rfl
  | case2 c tail hcomma =>
      obtain ⟨rfl, rfl⟩ := Prod.mk.inj (Except.ok.inj h)
      simpa using hcomma
  | case3 => cases h
  | case4 c tail hcomma hnone ih =>
      obtain ⟨⟨b, more'⟩, hb, hab⟩ := Object.map_ok h
      obtain ⟨rfl, rfl⟩ := Prod.mk.inj hab
      exact congrArg (c :: ·) (ih hb)
  | case5 c tail hcomma span rest hspan hlt ih =>
      obtain ⟨⟨b, more'⟩, hb, hab⟩ := Object.map_ok h
      obtain ⟨rfl, rfl⟩ := Prod.mk.inj hab
      rw [← take?_append hspan, List.append_assoc, ← ih hb]

theorem sublist_of_pieces {s : List Char} {args : List (List Char)} (h : pieces s = .ok args) :
    ∀ a ∈ args, a <+ s := by
  fun_induction pieces s generalizing args with
  | case1 => cases h
  | case2 s a ha =>
      obtain rfl : s = a := by simpa using takeArgument_append ha
      rw [← Except.ok.inj h]
      simpa using Text.trim_sublist s
  | case3 s a rest ha hlt ih =>
      obtain rfl : s = a ++ ',' :: rest := takeArgument_append ha
      obtain ⟨args', hargs', rfl⟩ := Object.map_ok h
      intro b hb
      rcases List.mem_cons.1 hb with rfl | hb
      · exact (Text.trim_sublist a).trans (List.sublist_append_left ..)
      · exact (ih hargs' b hb).trans
          ((List.sublist_cons_self ..).trans (List.sublist_append_right ..))

theorem sublist_of_arguments {s : List Char} {args : List (List Char)}
    (h : arguments s = .ok args) : ∀ a ∈ args, a <+ s := by
  obtain ⟨all, hall, hargs⟩ := Object.map_ok h
  intro a ha
  split at hargs
  · subst hargs
    cases ha
  · exact sublist_of_pieces hall a (hargs ▸ ha)

theorem inner_sublist (span : List Char) : inner span <+ span :=
  (List.dropLast_sublist _).trans (List.tail_sublist _)

theorem length_inner_lt {span : List Char} (h : span ≠ []) : (inner span).length < span.length := by
  have := List.length_pos_iff.2 h
  simp only [inner, List.length_dropLast, List.length_tail]
  omega

end Span

namespace Term

theorem arrayElement?_eq_some_iff {token element : List Char} :
    arrayElement? token = some element ↔ token = element ++ ['[', ']'] ∧ element ≠ [] := by
  simp only [arrayElement?, Text.stripTail?, Option.filter_eq_some_iff, Option.map_eq_some_iff,
    Text.stripLead?_eq_some_iff]
  constructor
  · rintro ⟨⟨r, hr, rfl⟩, hne⟩
    exact ⟨by simpa using congrArg List.reverse hr, by simpa using hne⟩
  · rintro ⟨rfl, hne⟩
    exact ⟨⟨element.reverse, by simp, by simp⟩, by simpa using hne⟩

def Shape.texts : Shape → List (List Char)
  | .array element => [element]
  | .group inside => [inside]
  | .named _ (some arguments) => arguments
  | _ => []

theorem spanShape_texts {token : List Char} (hne : token ≠ []) :
    ∀ text ∈ (spanShape token).texts, text <+ token ∧ text.length < token.length := by
  unfold spanShape
  split
  · simp [Shape.texts]
  · simp [Shape.texts]
  · intro text htext
    obtain rfl := List.mem_singleton.1 htext
    exact ⟨Span.inner_sublist _, Span.length_inner_lt hne⟩
  · simp [Shape.texts]
  · simp [Shape.texts]

theorem nameShape_texts (token : List Char) :
    ∀ text ∈ (nameShape token).texts, text <+ token ∧ text.length < token.length := by
  unfold nameShape
  split
  · simp [Shape.texts]
  · simp [Shape.texts]
  next name rest hrest hname =>
    split
    · simp [Shape.texts]
    next span hspan =>
      split
      · split
        · simp [Shape.texts]
        next arguments harguments =>
          intro text htext
          have htext := Span.sublist_of_arguments harguments text htext
          have hinner := Span.length_inner_lt (Span.take?_spans hspan).1
          have hspan : span = rest := by simpa using Span.take?_append hspan
          have hrest := Text.length_lt_of_takeName? hname
          have htoken : rest <+ token := Text.takeName?_append hname ▸ List.sublist_append_right ..
          subst hspan
          exact ⟨htext.trans ((Span.inner_sublist span).trans htoken),
            Nat.lt_trans (Nat.lt_of_le_of_lt htext.length_le hinner) hrest⟩
      · simp [Shape.texts]
    · simp [Shape.texts]

theorem shape_texts (generic : Option (List Char)) (token : List Char) :
    ∀ text ∈ (shape generic token).texts, text <+ token ∧ text.length < token.length := by
  unfold shape
  split
  next element h =>
    obtain ⟨rfl, -⟩ := arrayElement?_eq_some_iff.1 h
    simp [Shape.texts]
  · split
    · simp [Shape.texts]
    next span h =>
      exact spanShape_texts fun hnil => by simp [hnil, Span.take?] at h
    · unfold wordShape
      split
      · simp [Shape.texts]
      split
      · simp [Shape.texts]
      split
      · simp [Shape.texts]
      · exact nameShape_texts token

theorem eq_of_shape_object {generic : Option (List Char)} {token text : List Char}
    (h : shape generic token = .object text) : text = token ∧ ∃ tail, token = '\x7b' :: tail := by
  unfold shape at h
  split at h
  · cases h
  split at h
  · cases h
  · unfold spanShape at h
    split at h
    · cases h
    · cases h
    · cases h
    · cases h
      exact ⟨rfl, _, rfl⟩
    · cases h
  · unfold wordShape nameShape at h
    repeat' split at h
    all_goals cases h

end Term

/-! ## Objects -/

namespace Object

theorem size_scanEntries (start s : List Char) :
    ∀ entry ∈ (scanEntries start s).entries, Tokens.sizeOf entry.value < s.length := by
  fun_induction scanEntries start s with
  | case1 => simp
  | case2 => simp
  | case3 s c tail hs hlt hclose hterm ih =>
      intro entry hentry
      exact Nat.lt_trans (ih entry hentry) hlt
  | case4 => simp
  | case5 s c tail hs hlt hclose hterm slot rest hhead e after htake =>
      simp only [List.mem_singleton, forall_eq]
      exact Nat.lt_of_le_of_lt (Nat.zero_le _) hlt
  | case6 s c tail hs hlt hclose hterm slot rest hhead value after htake hafter more ih =>
      have hrest := length_head hhead
      have hvalue := Tokens.size_take_le rest
      rw [htake] at hvalue
      simp only [List.length_cons] at hrest
      intro entry hentry
      rcases List.mem_cons.1 hentry with rfl | hentry
      · simp only at hvalue ⊢
        omega
      · exact Nat.lt_trans (ih entry hentry) hafter

theorem size_scan (s : List Char) :
    ∀ entry ∈ (scan s).entries, Tokens.sizeOf entry.value + 1 < s.length := by
  unfold scan
  split
  · simp
  next body hbody =>
    obtain rfl := Text.eat?_eq_some_iff.1 hbody
    intro entry hentry
    have := size_scanEntries _ body entry hentry
    simp only [List.length_cons]
    omega

end Object

/-! ## Levels inside a level -/

namespace Tokens

theorem size_member_lt {items : List (List Char)} {joiner : Joiner} {item : List Char}
    (h : item ∈ items) : sizeOf (take item).1 < sizeOf (.ok ⟨items, some joiner⟩) := by
  have htake := size_take_le item
  have hitem := (List.sublist_flatten_of_mem h).length_le
  simp only [sizeOf, size, Option.toList_some, List.length_singleton] at *
  omega

theorem sizeOf_token (token : List Char) : sizeOf (.ok ⟨[token], none⟩) = token.length := by
  simp [sizeOf, size]

variable {generic : Option (List Char)} {token text : List Char}

theorem size_text_lt {shape : Term.Shape} (h : Term.shape generic token = shape)
    (htext : text ∈ shape.texts) : sizeOf (take text).1 < sizeOf (.ok ⟨[token], none⟩) := by
  rw [sizeOf_token]
  exact Nat.lt_of_le_of_lt (size_take_le text) (Term.shape_texts generic token text (h ▸ htext)).2

theorem size_value_lt (h : Term.shape generic token = .object text) {entry : Object.Entry}
    (hentry : entry ∈ (Object.scan text).entries) :
    sizeOf entry.value + 1 < sizeOf (.ok ⟨[token], none⟩) := by
  rw [sizeOf_token, ← (Term.eq_of_shape_object h).1]
  exact Object.size_scan text entry hentry

end Tokens

end Typings
