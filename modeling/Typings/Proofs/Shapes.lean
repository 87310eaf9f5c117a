import Typings.Term.Size

/-!
# What a token says, case by case

The recognizers of tokens look at what is left behind a name or a span.  Here they ask whether
anything is left, which is easier to answer of a text that is given in parts.
-/

namespace Typings.Term

theorem spanShape_eq {c : Char} (hc : Span.isQuote c = false) (tail : List Char) :
    spanShape (c :: tail) =
      if c = '(' then .group (Span.inner (c :: tail))
      else if c = '\x7b' then .object (c :: tail)
      else .unknown := by
  unfold spanShape
  split
  all_goals simp_all [Span.isQuote]

theorem nameShape_eq (token : List Char) :
    nameShape token =
      match Text.takeName? token with
      | none => .unknown
      | some (name, rest) =>
          if rest = [] then .named (String.ofList name) none
          else
            match Span.take? rest with
            | .error e => .invalid e
            | .ok none => .unknown
            | .ok (some (span, behind)) =>
                if behind = [] ∧ rest.head? = some '<' then
                  match Span.arguments (Span.inner span) with
                  | .error e => .invalid e
                  | .ok arguments => .named (String.ofList name) (some arguments)
                else .unknown := by
  unfold nameShape
  rcases Text.takeName? token with _ | ⟨name, _ | ⟨c, rest⟩⟩
  · rfl
  · rfl
  · dsimp only
    rw [if_neg (List.cons_ne_nil c rest)]
    rcases Span.take? (c :: rest) with e | _ | ⟨span, _ | ⟨d, behind⟩⟩
    · rfl
    · rfl
    · exact ite_congr (by simp) (fun _ => rfl) fun _ => rfl
    · exact (if_neg fun h => List.cons_ne_nil d behind h.1).symm

theorem shape_eq (generic : Option (List Char)) (token : List Char) :
    shape generic token =
      match arrayElement? token with
      | some element => .array element
      | none =>
          match Span.take? token with
          | .error e => .invalid e
          | .ok none => wordShape generic token
          | .ok (some (_, rest)) =>
              if rest = [] then spanShape token else wordShape generic token := by
  unfold shape
  rcases arrayElement? token with _ | element
  · rcases Span.take? token with e | _ | ⟨span, _ | ⟨c, rest⟩⟩
    · rfl
    · rfl
    · rfl
    · exact (if_neg (List.cons_ne_nil c rest)).symm
  · rfl

/-- A token that is neither a keyword nor a numeral nor the type parameter is read as a name. -/
theorem wordShape_eq_nameShape {generic : Option (List Char)} {token : List Char}
    (hkeyword : ∀ kind : Primitive, token ≠ kind.keyword.toList)
    (htrue : token ≠ "true".toList) (hfalse : token ≠ "false".toList)
    (hnumeral : token.head?.any (fun c => c.isDigit || c == '-') = false ∨
      Decimal.read? token = none)
    (hgeneric : generic ≠ some token) : wordShape generic token = nameShape token := by
  have hprimitive : Primitive.ofKeyword? (String.ofList token) = none := by
    rw [Primitive.ofKeyword?, List.find?_eq_none]
    intro kind _ hkind
    rw [beq_iff_eq] at hkind
    exact hkeyword kind (by rw [hkind, String.toList_ofList])
  have hliteral : keywordLiteral? token = none := by
    rw [keywordLiteral?, if_neg (by simpa using htrue), if_neg (by simpa using hfalse)]
    rcases hnumeral with hhead | hread
    · rw [hhead]
      rfl
    · rw [hread]
      split <;> rfl
  rw [wordShape, hprimitive]
  simp only [hliteral, if_neg hgeneric]

theorem arrayElement?_eq_none {token : List Char} (h : token.getLast? ≠ some ']') :
    arrayElement? token = none := by
  rw [Option.eq_none_iff_forall_ne_some]
  intro element helement
  refine h ?_
  rw [(arrayElement?_eq_some_iff.1 helement).1, List.append_cons, List.getLast?_concat]

theorem shape_of_take? (generic : Option (List Char)) {token : List Char}
    (h : Span.take? token = .ok (some (token, []))) (hlast : token.getLast? ≠ some ']') :
    shape generic token = spanShape token := by
  rw [shape_eq, arrayElement?_eq_none hlast, h]
  exact if_pos rfl

end Typings.Term
