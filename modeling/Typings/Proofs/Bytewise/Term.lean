import Typings.Proofs.Bytewise.Tokens
import Typings.Proofs.Shapes

/-!
# Terms by bytes

A token is cut into the texts of its parts, and each part is read as a level of its own.  Reading
goes on behind parts that fail, so it takes every slice that parsing takes, whichever names are
known and whichever part stops it.
-/

namespace Typings.Bytewise

open Text

/-! ## Shapes -/

def spanShape (span : List Char) : Checked Term.Shape := do
  match (units span).head? with
  | none => return .unknown
  | some b =>
      if Span.isQuote b then
        return .literal (.string (String.ofList (Span.unescape (← inner span))))
      else if b == '(' then return .group (← inner span)
      else if b == '\x7b' then return .object span
      else return .unknown

def Scan.argumentShape (name ahead span : List Char) : Scan Term.Shape :=
  match byteLength span == byteLength ahead && ahead.head? == some '<' with
  | false => return .unknown
  | true => return .named (String.ofList name) (some (← arguments (← inner span)))

def Scan.nameShape : Scan Term.Shape := do
  match ← takeName with
  | none => return .unknown
  | some name =>
      match ← isAtEnd with
      | true => return .named (String.ofList name) none
      | false =>
          let ahead ← rest
          match ← pair ahead with
          | none => return .unknown
          | some span => argumentShape name ahead span

def wordShape (generic : Option (List Char)) (token : List Char) : Checked Term.Shape :=
  match Primitive.ofKeyword? (String.ofList token) with
  | some kind => return .primitive kind
  | none =>
      match Term.keywordLiteral? token with
      | some value => return .literal value
      | none => if generic = some token then return .generic else Scan.run token Scan.nameShape

def classify (generic : Option (List Char)) (token : List Char) : Checked Term.Shape :=
  match Term.arrayElement? token with
  | some element => return .array element
  | none => do
      match ← pair token with
      | none => wordShape generic token
      | some span =>
          if byteLength span == byteLength token then spanShape span else wordShape generic token

def settle : Except Error Term.Shape → Term.Shape
  | .error e => .invalid e
  | .ok shape => shape

def shape (generic : Option (List Char)) (token : List Char) : Option Term.Shape :=
  (classify generic token).run.map settle

/-! ## Levels -/

def tokens (text : List Char) : Option (Except Error Tokens) :=
  (Scan.run text Scan.takeLevel).run

def body (value : Except Error Tokens → Option Term) (outcome : Except Error (List Char)) :
    List Object.Entry → Option Body
  | [] => match outcome with
    | .ok _ => return .closed
    | .error e => return .broken e
  | ⟨.named key optional, v⟩ :: entries =>
      return .property key optional (← value v) (← body value outcome entries)
  | ⟨.dynamic, v⟩ :: entries => return .dynamic (← value v) (← body value outcome entries)

def objectOf (value : Except Error Tokens → Option Term) (text : List Char) : Option Term := do
  match ← (Scan.run text Scan.object).run with
  | .error e => return .invalid e
  | .ok scan => return .object (← body value scan.outcome scan.entries)

def level (generic : Option (List Char)) : Nat → Except Error Tokens → Option Term
  | 0, _ => return .invalid .nestingTooDeep
  | _ + 1, .error e => return .invalid e
  | n + 1, .ok ⟨items, some joiner⟩ =>
      return .compound joiner (← items.mapM fun item => do level generic n (← tokens item))
  | n + 1, .ok ⟨[token], none⟩ => do
      let inside := fun text => do level generic n (← tokens text)
      match ← shape generic token with
      | .invalid e => return .invalid e
      | .array element => return .array (← inside element)
      | .group text => inside text
      | .object text =>
          match n with
          | 0 => return .invalid .nestingTooDeep
          | m + 1 => objectOf (level generic m) text
      | .literal value => return .literal value
      | .primitive kind => return .primitive kind
      | .generic => return .generic
      | .named name none => return .named name none
      | .named name (some arguments) => return .named name (some (← arguments.mapM inside))
      | .unknown => return .unknown
  | _ + 1, .ok _ => return .unknown

def parse (generic : Option (List Char)) (text : List Char) : Option Term := do
  level generic maxNesting (← tokens text)

/-! ## Shapes are the same -/

theorem byteLength_beq {text span behind : List Char} (h : span ++ behind = text) :
    (byteLength span == byteLength text) = behind.isEmpty := by
  rw [← h, byteLength_append, Bool.eq_iff_iff, beq_iff_eq, List.isEmpty_iff,
    ← byteLength_eq_zero_iff]
  omega

theorem spanShape_eq {text span rest : List Char} (h : Span.take? text = .ok (some (span, rest))) :
    spanShape span = pure (Term.spanShape span) := by
  have hinner := inner_eq h
  obtain ⟨c, inside, closing, rfl, hc, -⟩ := ends_of_take? h
  rw [spanShape, units_cons_of_isAscii hc, List.head?_cons]
  dsimp only
  rw [hinner]
  cases hquote : Span.isQuote c
  · rw [Term.spanShape_eq hquote]
    by_cases hround : c = '('
    · subst hround
      rfl
    by_cases hbrace : c = '\x7b'
    · subst hbrace
      rfl
    · simp [hround, hbrace]
  · rw [Span.isQuote, Bool.or_eq_true, beq_iff_eq, beq_iff_eq] at hquote
    obtain rfl | rfl := hquote <;> rfl

theorem Yields.argumentShape {text s ahead span behind : List Char} (name : List Char)
    (htake : Span.take? ahead = .ok (some (span, behind))) :
    ∃ outcome, Yields text s (Scan.argumentShape name ahead span) outcome ∧
      settle outcome =
        if behind = [] ∧ ahead.head? = some '<' then
          match Span.arguments (Span.inner span) with
          | .error e => .invalid e
          | .ok arguments => .named (String.ofList name) (some arguments)
        else .unknown := by
  unfold Scan.argumentShape
  rw [byteLength_beq (Span.take?_append htake)]
  by_cases hwhole : behind = [] ∧ ahead.head? = some '<'
  · have hflag : (behind.isEmpty && ahead.head? == some '<') = true := by simp [hwhole]
    have harguments : Reads text s (liftM (arguments (Span.inner span))) _ := Reads.arguments _
    rw [hflag, if_pos hwhole]
    rcases hsplit : Span.arguments (Span.inner span) with e | found <;> rw [hsplit] at harguments
    · exact ⟨.error e, (Reads.inner htake).yields (.of_reads harguments.bind_error), rfl⟩
    · exact ⟨_, (Reads.inner htake).yields (harguments.yields (.pure _)), rfl⟩
  · have hflag : (behind.isEmpty && ahead.head? == some '<') = false := by
      rw [Bool.eq_false_iff]
      simpa using hwhole
    rw [hflag, if_neg hwhole]
    exact ⟨_, .pure _, rfl⟩

theorem Yields.nameShape (token : List Char) :
    ∃ outcome, Yields token token Scan.nameShape outcome ∧
      settle outcome = Term.nameShape token := by
  rw [Term.nameShape_eq]
  rcases hname : takeName? token with _ | ⟨name, rest⟩
  · exact ⟨_, (Reads.takeName_none hname).yields (.pure _), rfl⟩
  dsimp only
  by_cases hrest : rest = []
  · subst hrest
    exact ⟨_, (Reads.takeName_some hname).yields (Reads.isAtEnd.yields (.pure _)), rfl⟩
  rw [if_neg hrest]
  have hend : Reads token rest Scan.isAtEnd (.ok (false, rest)) :=
    List.isEmpty_eq_false_iff.2 hrest ▸ Reads.isAtEnd
  rcases htake : Span.take? rest with e | _ | ⟨span, behind⟩
  · exact ⟨.error e, (Reads.takeName_some hname).yields (hend.yields (Reads.rest.yields
      (.of_reads (Reads.pair_error htake).bind_error))), rfl⟩
  · exact ⟨.ok .unknown, (Reads.takeName_some hname).yields (hend.yields (Reads.rest.yields
      ((Reads.pair_none htake).yields (.pure _)))), rfl⟩
  · obtain ⟨outcome, hshape, hsettle⟩ : ∃ outcome,
        Yields token rest (Scan.argumentShape name rest span) outcome ∧ settle outcome = _ :=
      argumentShape name htake
    exact ⟨outcome, (Reads.takeName_some hname).yields (hend.yields (Reads.rest.yields
      ((Reads.pair_some htake).yields hshape))), hsettle⟩

theorem wordShape_eq (generic : Option (List Char)) (token : List Char) :
    ∃ outcome, wordShape generic token = done outcome ∧
      settle outcome = Term.wordShape generic token := by
  unfold wordShape Term.wordShape
  rcases Primitive.ofKeyword? (String.ofList token) with _ | kind
  · dsimp only
    rcases Term.keywordLiteral? token with _ | value
    · dsimp only
      split
      · exact ⟨_, rfl, rfl⟩
      · obtain ⟨outcome, hshape, hsettle⟩ := Yields.nameShape token
        exact ⟨outcome, hshape.run, hsettle⟩
    · exact ⟨_, rfl, rfl⟩
  · exact ⟨_, rfl, rfl⟩

theorem classify_eq (generic : Option (List Char)) (token : List Char) :
    ∃ outcome, classify generic token = done outcome ∧
      settle outcome = Term.shape generic token := by
  rw [Term.shape_eq]
  unfold classify
  rcases Term.arrayElement? token with _ | element
  · dsimp only
    rw [pair_eq]
    rcases htake : Span.take? token with e | _ | ⟨span, behind⟩
    · exact ⟨.error e, rfl, rfl⟩
    · exact wordShape_eq generic token
    have hparts := Span.take?_append htake
    have hwhole := byteLength_beq hparts
    dsimp only
    by_cases hbehind : behind = []
    · rw [hbehind, List.append_nil] at hparts
      refine ⟨.ok (Term.spanShape span), ?_, by rw [if_pos hbehind, ← hparts]; rfl⟩
      rw [List.isEmpty_iff.2 hbehind] at hwhole
      exact (if_pos hwhole).trans (spanShape_eq htake)
    · obtain ⟨outcome, hword, hsettle⟩ := wordShape_eq generic token
      refine ⟨outcome, ?_, by rw [hsettle, if_neg hbehind]⟩
      rw [List.isEmpty_eq_false_iff.2 hbehind] at hwhole
      exact (if_neg (ne_true_of_eq_false hwhole)).trans hword
  · exact ⟨_, rfl, rfl⟩

theorem shape_eq (generic : Option (List Char)) (token : List Char) :
    shape generic token = some (Term.shape generic token) := by
  obtain ⟨outcome, hclassify, hsettle⟩ := classify_eq generic token
  rw [shape, hclassify, ← hsettle]
  rfl

/-! ## Levels are the same -/

theorem tokens_eq (text : List Char) : tokens text = some (Tokens.take text).1 := by
  have hread : Reads text text Scan.takeLevel _ := Reads.takeLevel
  rw [tokens, (Yields.of_reads hread).run]
  rcases (Tokens.take text).1 with e | level <;> rfl

theorem mapM_eq_some {α β : Type} {f : α → Option β} {g : α → β} (as : List α)
    (h : ∀ a ∈ as, f a = some (g a)) : as.mapM f = some (as.map g) := by
  induction as with
  | nil => rfl
  | cons a as ih =>
      rw [List.mapM_cons, h a List.mem_cons_self, ih fun b hb => h b (List.mem_cons_of_mem a hb)]
      rfl

section Values

variable {value : Except Error Tokens → Option Term} {value' : Except Error Tokens → Term}

theorem body_eq (hvalue : ∀ t, value t = some (value' t)) (outcome : Except Error (List Char))
    (entries : List Object.Entry) :
    body value outcome entries = some (Term.bodyOf value' outcome entries) := by
  induction entries with
  | nil => cases outcome <;> rfl
  | cons entry entries ih =>
      rcases entry with ⟨⟨key, optional⟩ | _, v⟩
      · rw [body, ih, hvalue]
        rfl
      · rw [body, ih, hvalue]
        rfl

theorem objectOf_eq (hvalue : ∀ t, value t = some (value' t)) (text : List Char) :
    objectOf value text = some (Term.objectOf value' text) := by
  rw [objectOf, (Yields.object (List.suffix_refl text)).run]
  show (body value (Object.scan text).outcome (Object.scan text).entries >>= fun found =>
    some (Term.object found)) = _
  rw [body_eq hvalue]
  rfl

end Values

theorem level_eq (generic : Option (List Char)) (n : Nat) (t : Except Error Tokens) :
    level generic n t = some (Term.ofLevel generic n t) := by
  induction n using Nat.strongRecOn generalizing t with
  | _ n ih =>
      have hinside (m : Nat) (hm : m < n) (text : List Char) :
          (tokens text >>= level generic m) =
            some (Term.ofLevel generic m (Tokens.take text).1) := by
        rw [tokens_eq]
        exact ih m hm _
      match n, t with
      | 0, _ => rw [level, Term.ofLevel]; rfl
      | _ + 1, .error e => rw [level, Term.ofLevel]; rfl
      | n + 1, .ok ⟨items, some joiner⟩ =>
          rw [level, Term.ofLevel, mapM_eq_some items fun item _ => hinside n n.lt_succ_self item]
          rfl
      | n + 1, .ok ⟨[token], none⟩ =>
          have hmap (texts : List (List Char)) :=
            mapM_eq_some texts fun text _ => hinside n n.lt_succ_self text
          rw [level, Term.ofLevel, shape_eq]
          cases Term.shape generic token with
          | invalid e => rfl
          | array element =>
              show ((tokens element >>= level generic n) >>= fun t => some (Term.array t)) = _
              rw [hinside n n.lt_succ_self]
              rfl
          | group text => exact hinside n n.lt_succ_self text
          | object text =>
              cases n with
              | zero => rfl
              | succ m => exact objectOf_eq (ih m (by omega)) text
          | literal value => rfl
          | primitive kind => rfl
          | generic => rfl
          | named name arguments =>
              cases arguments with
              | none => rfl
              | some arguments =>
                  show ((arguments.mapM fun text => tokens text >>= level generic n) >>=
                    fun found => some (Term.named name (some found))) = _
                  rw [hmap]
                  rfl
          | unknown => rfl
      | _ + 1, .ok ⟨[], none⟩ => rw [level, Term.ofLevel] <;> simp
      | _ + 1, .ok ⟨_ :: _ :: _, none⟩ => rw [level, Term.ofLevel] <;> simp

theorem parse_eq (generic : Option (List Char)) (text : List Char) :
    parse generic text = some (Term.parse generic text) := by
  rw [parse, tokens_eq]
  exact level_eq generic maxNesting _

end Typings.Bytewise
