import IntoMarkdown.Render.Text

/-! # Inlines

Serialization of inline content, in Markdown and in HTML tables. -/

namespace IntoMarkdown.Render
open Ir Lib Lib.Strings

/-! ## Marked text -/

def textParts : Inline → Option (Text × List InlineMark)
  | .text value marks => some (value, marks)
  | .sourceText value marks _ => some (value, marks)
  | .ocrText value marks _ _ => some (value, marks)
  | _ => none

def sameMarks (left right : List InlineMark) : Bool :=
  left.length = right.length && left.all fun mark => right.contains mark

def separating (character : Option Char) : Bool :=
  character.all fun c => isWhitespace c || isAsciiPunctuation c

def nativeBoundaries (u : Unicode) (value : Text) (previous next : Option Char) : Bool :=
  value.head?.any (fun c => u.isAlphanumeric c || separating previous) &&
    value.getLast?.any (fun c => u.isAlphanumeric c || separating next) &&
    !previous.any (fun c => c = '*' || c = '~')

def isHtmlMark (mark : InlineMark) : Bool :=
  mark = .underline || mark = .superscript || mark = .subscript

def openMark (native : Bool) : InlineMark → Text
  | .bold => if native then "**".toList else "<strong>".toList
  | .italic => if native then "*".toList else "<em>".toList
  | .strikethrough => if native then "~~".toList else "<del>".toList
  | .underline => "<u>".toList
  | .superscript => "<sup>".toList
  | .subscript => "<sub>".toList

def closeMark (native : Bool) : InlineMark → Text
  | .bold => if native then "**".toList else "</strong>".toList
  | .italic => if native then "*".toList else "</em>".toList
  | .strikethrough => if native then "~~".toList else "</del>".toList
  | .underline => "</u>".toList
  | .superscript => "</sup>".toList
  | .subscript => "</sub>".toList

/-- From the innermost mark to the outermost. -/
def wrapperOrder : List InlineMark :=
  [.subscript, .superscript, .underline, .italic, .bold, .strikethrough]

def renderMarkedText (u : Unicode) (value : Text) (marks : List InlineMark)
    (previous next : Option Char) : Text :=
  let value := singleLine value
  let trimmed := trim value
  if trimmed = [] ∨ marks = [] then escapeText value
  else
    let lead := leading value
    let trail := trailing value
    let previous := lead.getLast?.or previous
    let next := trail.head?.or next
    let htmlMarks := (marks.contains .strikethrough && 1 < marks.length) || marks.any isHtmlMark
    let native := nativeBoundaries u trimmed previous next &&
      (!htmlMarks || (separating previous && separating next))
    let text := escapeText (if native then trimmed else value)
    let wrappers := wrapperOrder.filter fun mark => marks.contains mark
    (if native then lead else []) ++ wrappers.reverse.flatMap (openMark native) ++ text ++
      wrappers.flatMap (closeMark native) ++ (if native then trail else [])

/-! ## Inlines -/

/-- Text that may still grow by neighbours of the same marks. -/
abbrev Pending := Option (Text × List InlineMark)

/-- The output with the pending text, before a character of more text. -/
def flush (u : Unicode) (output : Text) (pending : Pending) (next : Option Char) : Text :=
  match pending with
  | none => output
  | some run => output ++ renderMarkedText u run.1 run.2 output.getLast? next

def lineBreak : InlineContext → Text
  | .normal => "  \n".toList
  | .tableCell => "<br>".toList

mutual

def renderInline (u : Unicode) (context : InlineContext) : Inline → Except RenderError Text
  | .code value => .ok (renderCodeSpan value context)
  | .link target content => do
    validateLinkTarget target
    let label ← renderFrom u context [] none content
    return ['['] ++ label ++ "](<".toList ++ escapeDestination target context ++ ">)".toList
  | .formula value => .ok (['$'] ++ renderCodeSpan value context ++ ['$'])
  | .footnoteReference label => .ok ("[^".toList ++ footnoteLabel label ++ [']'])
  | .lineBreak => .ok (lineBreak context)
  | _ => .error (renderError "document contains an unsupported future inline variant")

def renderFrom (u : Unicode) (context : InlineContext) (output : Text) (pending : Pending) :
    List Inline → Except RenderError Text
  | [] => .ok (flush u output pending none)
  | inline :: rest =>
    match textParts inline with
    | some parts =>
      if pending.any fun run => sameMarks run.2 parts.2 then
        renderFrom u context output (pending.map fun run => (run.1 ++ parts.1, run.2)) rest
      else renderFrom u context (flush u output pending parts.1.head?) (some parts) rest
    | none => do
      let rendered ← renderInline u context inline
      renderFrom u context (flush u output pending none ++ rendered) none rest

end

def renderInlines (u : Unicode) (inlines : List Inline) (context : InlineContext) :
    Except RenderError Text :=
  renderFrom u context [] none inlines

/-- Office paragraph indentation is text, while Markdown indentation can start code. -/
def protectParagraphIndent (rendered : Text) : Text :=
  let lead := rendered.takeWhile fun c => c = ' ' || c = '\t'
  if trim rendered ≠ [] ∧ ('\t' ∈ lead ∨ 4 ≤ lead.length) then
    (if rendered.head? = some '\t' then "&#9;".toList else "&#32;".toList) ++ rendered.tail
  else rendered

def boldCell (rendered : Text) : Text :=
  if trim rendered = [] then rendered
  else if '*' ∈ rendered ∨ rendered.head? = some '<' ∨ rendered.getLast? = some '>' then
    "<strong>".toList ++ rendered ++ "</strong>".toList
  else "**".toList ++ trim rendered ++ "**".toList

/-! ## HTML -/

def htmlMarkOrder : List InlineMark :=
  [.subscript, .superscript, .underline, .strikethrough, .italic, .bold]

def renderHtmlText (value : Text) (marks : List InlineMark) : Text :=
  let rendered := replaceChar '\n' "<br>".toList (escapeHtmlText (normalizeLf value))
  (htmlMarkOrder.filter fun mark => marks.contains mark).foldl
    (fun rendered mark => openMark false mark ++ rendered ++ closeMark false mark) rendered

mutual

def renderHtmlInline : Inline → Except RenderError Text
  | .text value marks => .ok (renderHtmlText value marks)
  | .sourceText value marks _ => .ok (renderHtmlText value marks)
  | .ocrText value marks _ _ => .ok (renderHtmlText value marks)
  | .code value => .ok ("<code>".toList ++ escapeHtmlCode value ++ "</code>".toList)
  | .formula value => .ok ("<code>".toList ++ escapeHtmlCode value ++ "</code>".toList)
  | .link target content => do
    validateLinkTarget target
    let label ← renderHtmlInlines content
    return "<a href=\"".toList ++ escapeHtmlAttribute target ++ "\">".toList ++ label ++
      "</a>".toList
  | .footnoteReference label => .ok ("[^".toList ++ escapeHtmlText label ++ [']'])
  | .lineBreak => .ok "<br>".toList

def renderHtmlInlines : List Inline → Except RenderError Text
  | [] => .ok []
  | inline :: rest => do
    let first ← renderHtmlInline inline
    let more ← renderHtmlInlines rest
    return first ++ more

end

end IntoMarkdown.Render
