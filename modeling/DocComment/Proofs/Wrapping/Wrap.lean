/-
  Wrapping a text in a comment.

  `wrap` puts the text behind `/**`, each line of it behind a margin ` * `, and `*/` behind the
  whole.

  * `text_dropMargins_addMargins`: the margins that were added are dropped, and nothing else;
  * `unwrap_wrap`: unwrapping gives the text back, behind the line that the opening stands on and
    without the space at its end.
-/
import DocComment.Proofs.Wrapping

namespace DocComment.Wrapping

open Text Excerpt

/-- A text with a margin behind each of its line terminators, where a CR LF is one. -/
def addMargins : List Char → List Char
  | [] => []
  | '\r' :: '\n' :: cs => '\r' :: '\n' :: ' ' :: '*' :: ' ' :: addMargins cs
  | c :: cs =>
    if isLineTerminator c then c :: ' ' :: '*' :: ' ' :: addMargins cs else c :: addMargins cs

/-- The comment of a text, with each line of the text on a line of its own. -/
def wrap (text : List Char) : List Char :=
  "/**\n * ".toList ++ addMargins text ++ "\n */".toList

/-- A margin that was added is dropped, but no more than it. -/
theorem dropMargins_margin (n : Nat) (cs : List Char) (e : Excerpt) :
    dropMargins .margin (place n (' ' :: '*' :: ' ' :: cs) ++ e) =
      dropMargins .content (place (n + 3) cs ++ e) := by
  simp only [place, List.cons_append, dropMargins]
  rfl

/-- **Margins that were added** are dropped, whatever the text holds. -/
theorem text_dropMargins_addMargins (cs : List Char) (n : Nat) (e : Excerpt) :
    text (dropMargins .content (place n (addMargins cs) ++ e)) =
      cs ++ text (dropMargins .content e) := by
  fun_induction addMargins cs generalizing n with
  | case1 => rfl
  | case2 cs ih =>
    rw [place, place, List.cons_append, List.cons_append,
      dropMargins_cons_of_isLineTerminator rfl, dropMargins_cons_of_isLineTerminator rfl,
      dropMargins_margin, text_cons, text_cons, ih]
    rfl
  | case3 c cs _ hc ih =>
    rw [place, List.cons_append, dropMargins_cons_of_isLineTerminator hc, dropMargins_margin,
      text_cons, ih]
    rfl
  | case4 c cs _ hc ih =>
    rw [place, List.cons_append, dropMargins_content_cons hc, text_cons, ih]
    rfl

/-- The delimiters are taken off, whatever stands between them. -/
theorem body_delimited (cs : List Char) :
    body ('/' :: '*' :: '*' :: (cs ++ ['*', '/'])) = place 3 cs :=
  congrArg (place 3) (dropClosing_append cs)

/-- Between the delimiters of a wrapped text stands a line for each of its lines, and the start of
    the line that the closing stands on. -/
theorem body_wrap (text : List Char) :
    body (wrap text) = place 3 ("\n * ".toList ++ addMargins text ++ "\n ".toList) := by
  have hopen : "/**\n * ".toList = '/' :: '*' :: '*' :: "\n * ".toList := rfl
  have hclose : "\n */".toList = "\n ".toList ++ ['*', '/'] := rfl
  have hsplit (lines : List Char) : "/**\n * ".toList ++ lines ++ "\n */".toList =
      '/' :: '*' :: '*' :: ("\n * ".toList ++ lines ++ "\n ".toList ++ ['*', '/']) := by
    rw [hopen, hclose, ← List.append_assoc]
    rfl
  change body ("/**\n * ".toList ++ addMargins text ++ "\n */".toList) = _
  rw [hsplit, body_delimited]

/-- **Unwrapping undoes wrapping.**  What is left of the comment of a text is a line terminator and
    the text, without the space at its end. -/
theorem unwrap_wrap (text : List Char) :
    (unwrap (wrap text)).text = Text.trimEnd ('\n' :: text) := by
  have hend (n : Nat) : Excerpt.text (dropMargins .content (place n "\n ".toList)) = ['\n'] := rfl
  have hkept : Excerpt.text (dropMargins .margin (body (wrap text))) =
      '\n' :: text ++ ['\n'] := by
    rw [body_wrap, place_append, place_append, List.append_assoc]
    have hline := text_dropMargins_addMargins text (3 + width "\n * ".toList)
      (place (3 + width ("\n * ".toList ++ addMargins text)) "\n ".toList)
    rw [hend] at hline
    exact congrArg ('\n' :: ·) hline
  rw [unwrap, Wrapping.trimEnd, text_dropEndWhile, hkept, Text.trimEnd]
  exact dropEndWhile_append_of_pos (List.forall_mem_singleton.2 rfl)

/-- The text may hold stars, delimiters, blanks and any line terminators. -/
example : (unwrap (wrap " * /**\r\n*/\r\t* a\u2028 ".toList)).text =
    "\n * /**\r\n*/\r\t* a".toList := by
  decide +kernel

end DocComment.Wrapping
