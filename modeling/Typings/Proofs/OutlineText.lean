import Typings.Outline
import Typings.Proofs.Decoding
import Typings.Proofs.Location
import Typings.Proofs.TokenText

/-!
# The lines of an outline

Each line keeps its indentation and the last one its end, so the text of an outline has exactly the
lines that were written, and tells them.
-/

namespace Typings

namespace OutlineLine

def body (l : OutlineLine) : List Char := List.replicate (2 * l.depth) ' ' ++ l.text

/-- A text that takes one line and has no white space around it. -/
structure Legible (text : List Char) : Prop where
  oneLine : '\n' ∉ text
  tight : Text.Tight text

theorem Legible.begins {text : List Char} (h : Legible text) :
    text.head?.any (· == ' ') = false := by
  obtain ⟨c, s, rfl⟩ := List.exists_cons_of_ne_nil h.tight.1
  have hspace : Text.isSpace c = false := h.tight.2.1
  rw [List.head?_cons, Option.any_some, beq_eq_false_iff_ne]
  rintro rfl
  cases hspace

theorem Legible.append {s t between : List Char} (hs : Legible s) (ht : Legible t)
    (hbetween : '\n' ∉ between) : Legible (s ++ between ++ t) :=
  ⟨by simp [hs.oneLine, hbetween, ht.oneLine], hs.tight.append ht.tight between⟩

theorem legible_of_isIdentifier {name : List Char} (h : Text.isIdentifier name = true) :
    Legible name := by
  have htight := (Tokens.Atom.name h .nil).tight
  rw [List.append_nil] at htight
  exact ⟨fun hmem => absurd (Text.isWord_of_isIdentifier h _ hmem) (by decide), htight⟩

variable {l l' : OutlineLine} {lines lines' : List OutlineLine}

theorem write_eq (l : OutlineLine) : l.write = l.body ++ ['\n'] := rfl

theorem newline_not_mem_body (h : Legible l.text) : '\n' ∉ l.body := by
  simp [body, h.oneLine]

theorem body_ne_nil (h : Legible l.text) : l.body ≠ [] := by
  simp [body, h.tight.1]

theorem eq_of_body (h : Legible l.text) (h' : Legible l'.text) (hbody : l.body = l'.body) :
    l = l' := by
  have hblank : ∀ n, ∀ c ∈ List.replicate n ' ', (c == ' ') = true := fun n c hc => by
    simp [List.eq_of_mem_replicate hc]
  obtain ⟨hindent, htext⟩ := eq_of_append_of_all (hblank _) (hblank _) h.begins h'.begins hbody
  have hlength := congrArg List.length hindent
  rw [List.length_replicate, List.length_replicate] at hlength
  obtain ⟨depth, text⟩ := l
  obtain ⟨depth', text'⟩ := l'
  obtain rfl : depth = depth' := Nat.eq_of_mul_eq_mul_left Nat.two_pos hlength
  obtain rfl : text = text' := htext
  rfl

theorem toList_writeOutline (hne : lines ≠ []) (h : ∀ l ∈ lines, Legible l.text) :
    (writeOutline lines).toList ++ ['\n'] = lines.flatMap write := by
  obtain ⟨first, l, rfl⟩ := lines.eq_nil_or_concat'.resolve_left hne
  obtain ⟨hne, -, hends⟩ := (h l (by simp)).tight
  obtain ⟨front, last, htext⟩ := l.text.eq_nil_or_concat'.resolve_left hne
  rw [htext, List.getLast?_concat, Option.any_some] at hends
  have hflat : (first ++ [l]).flatMap write =
      (first.flatMap write ++ List.replicate (2 * l.depth) ' ' ++ front ++ [last]) ++ ['\n'] := by
    simp [write_eq, body, htext]
  have hnewline : Text.isSpace '\n' = true := by decide
  rw [writeOutline, String.toList_ofList, hflat, Text.trimEnd_concat, if_pos hnewline,
    Text.trimEnd_concat, hends, if_neg Bool.false_ne_true]

theorem cut_flatMap_write (h : ∀ l ∈ lines, Legible l.text) :
    Text.cut (· == '\n') (lines.flatMap write) = lines.map body ++ [[]] := by
  induction lines with
  | nil => rfl
  | cons l lines ih =>
      rw [List.forall_mem_cons] at h
      rw [List.flatMap_cons, write_eq, List.append_assoc, List.singleton_append,
        Text.cut_append '\n' _ _ (newline_not_mem_body h.1), ih h.2, List.map_cons, List.cons_append]

theorem cut_writeOutline (hne : lines ≠ []) (h : ∀ l ∈ lines, Legible l.text) :
    Text.cut (· == '\n') (writeOutline lines).toList = lines.map body := by
  have hcut := cut_flatMap_write h
  rw [← toList_writeOutline hne h, Text.cut_append_sep] at hcut
  exact List.append_cancel_right hcut

theorem eq_nil_of_writeOutline (h : ∀ l ∈ lines, Legible l.text)
    (hnil : writeOutline lines = writeOutline []) : lines = [] := by
  cases lines with
  | nil => rfl
  | cons l lines =>
      have hcut := cut_writeOutline (List.cons_ne_nil l lines) h
      rw [hnil] at hcut
      exact absurd (List.cons.inj hcut).1.symm (body_ne_nil (h l (List.mem_cons_self ..)))

theorem eq_of_writeOutline (h : ∀ l ∈ lines, Legible l.text) (h' : ∀ l ∈ lines', Legible l.text)
    (heq : writeOutline lines = writeOutline lines') : lines = lines' := by
  by_cases hnil : lines = []
  · rw [hnil] at heq ⊢
    exact (eq_nil_of_writeOutline h' heq.symm).symm
  · have hne : lines' ≠ [] := by
      rintro rfl
      exact hnil (eq_nil_of_writeOutline h heq)
    have hbodies : lines.map body = lines'.map body := by
      rw [← cut_writeOutline hnil h, heq, cut_writeOutline hne h']
    exact eq_of_map_eq (fun l hl l' hl' => eq_of_body (h l hl) (h' l' hl')) hbodies

end OutlineLine

end Typings
