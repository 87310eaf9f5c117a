import Typings.Text

/-!
# Comments

A source is a run of pieces, each code or one comment.  String literals are code, so a `//` inside
one opens no comment.  Blanking a comment keeps line breaks and the byte length.
-/

namespace Typings.Comment

/-! ## Pieces of a source -/

inductive Piece where
  | code (text : List Char)
  | comment (multiline : Bool) (text : List Char)
  deriving DecidableEq, Repr

def Piece.text : Piece → List Char
  | .code text => text
  | .comment _ text => text

/--
The rest of a string literal with its closing quote, and what follows it.  A backslash takes the
next character along.  Only a literal between backticks goes on in the next line.
-/
def takeLiteral (quote : Char) : List Char → List Char × List Char
  | [] => ([], [])
  | ['\\'] => (['\\'], [])
  | '\\' :: c :: s =>
      let (inside, rest) := takeLiteral quote s
      ('\\' :: c :: inside, rest)
  | c :: s =>
      if c == '\n' && quote != '`' then ([], c :: s)
      else if c == quote then ([c], s)
      else
        let (inside, rest) := takeLiteral quote s
        (c :: inside, rest)

def takeBlock : List Char → List Char × List Char
  | [] => ([], [])
  | '*' :: '/' :: s => (['*', '/'], s)
  | c :: s =>
      let (inside, rest) := takeBlock s
      (c :: inside, rest)

def isLineBreak (c : Char) : Bool := c == '\n' || c == '\r'

def isStringQuote (c : Char) : Bool := c == '"' || c == '\'' || c == '`'

theorem takeLiteral_append (quote : Char) (s : List Char) :
    (takeLiteral quote s).1 ++ (takeLiteral quote s).2 = s := by
  fun_induction takeLiteral quote s with
  | case1 => rfl
  | case2 => rfl
  | case3 c s inside rest h ih => simp_all
  | case4 => rfl
  | case5 => rfl
  | case6 c s _ _ _ inside rest h ih => simp_all

theorem takeBlock_append (s : List Char) : (takeBlock s).1 ++ (takeBlock s).2 = s := by
  fun_induction takeBlock s with
  | case1 => rfl
  | case2 => rfl
  | case3 c s _ inside rest h ih => simp_all

theorem length_takeLiteral_le (quote : Char) (s : List Char) :
    (takeLiteral quote s).2.length ≤ s.length := by
  have h := congrArg List.length (takeLiteral_append quote s)
  simp only [List.length_append] at h
  omega

theorem length_takeBlock_le (s : List Char) : (takeBlock s).2.length ≤ s.length := by
  have h := congrArg List.length (takeBlock_append s)
  simp only [List.length_append] at h
  omega

def pieces (s : List Char) : List Piece :=
  match s with
  | [] => []
  | '/' :: '/' :: tail =>
      have := (List.dropWhile_suffix (!isLineBreak ·) (l := tail)).length_le
      .comment false ('/' :: '/' :: tail.takeWhile (!isLineBreak ·)) ::
        pieces (tail.dropWhile (!isLineBreak ·))
  | '/' :: '*' :: tail =>
      have := length_takeBlock_le tail
      .comment true ('/' :: '*' :: (takeBlock tail).1) :: pieces (takeBlock tail).2
  | c :: tail =>
      if isStringQuote c then
        have := length_takeLiteral_le c tail
        .code (c :: (takeLiteral c tail).1) :: pieces (takeLiteral c tail).2
      else .code [c] :: pieces tail
termination_by s.length

theorem flatMap_text_pieces (s : List Char) : (pieces s).flatMap Piece.text = s := by
  fun_induction pieces s with
  | case1 => rfl
  | case2 tail h ih =>
      simp only [List.flatMap_cons, Piece.text, ih, List.cons_append,
        List.takeWhile_append_dropWhile]
  | case3 tail h ih =>
      simp only [List.flatMap_cons, Piece.text, ih, List.cons_append, takeBlock_append]
  | case4 c tail _ _ _ h ih =>
      simp only [List.flatMap_cons, Piece.text, ih, List.cons_append, takeLiteral_append]
  | case5 c tail _ _ _ ih => simp only [List.flatMap_cons, Piece.text, ih, List.cons_append,
      List.nil_append]

/-! ## Ranges -/

structure Range where
  start : Nat
  stop : Nat
  multiline : Bool
  text : List Char
  deriving DecidableEq, Repr

def rangesFrom (start : Nat) : List Piece → List Range
  | [] => []
  | .code text :: more => rangesFrom (start + Text.byteLength text) more
  | .comment multiline text :: more =>
      let stop := start + Text.byteLength text
      ⟨start, stop, multiline, text⟩ :: rangesFrom stop more

def ranges (s : List Char) : List Range := rangesFrom 0 (pieces s)

def textAt (s : List Char) (start stop : Nat) : List Char := (Text.slice? s start stop).getD []

/-! ## Blanking -/

def blankChar (c : Char) : List Char :=
  if isLineBreak c then [c] else List.replicate c.utf8Size ' '

def Piece.blanked : Piece → List Char
  | .code text => text
  | .comment _ text => text.flatMap blankChar

def strip (s : List Char) : List Char := (pieces s).flatMap Piece.blanked

end Typings.Comment
