/-
  Kanagawa.Frontend.Lexer

  White space, comments and braces (`Parser/Lexer.hs`).

  A parser takes the text at a position and replies with the text behind what it
  read, or fails; a failure that has read nothing lets an alternative be tried, one
  that has read something ends the parse.  `skipBraces` reads a braced text with the
  reader of nested block comments; `braces` reads it item by item.
-/
import Kanagawa.Lib.Brackets

namespace Kanagawa.Frontend.Lexer

open Lib

/-- What a parser comes to. -/
inductive Reply (α : Type) where
  | ok (a : α) (rest : List Char)
  | empty
  | consumed
  deriving DecidableEq

/-! ## White space -/

/-- `Data.Char.isSpace`. -/
def isSpace (c : Char) : Bool :=
  let n := c.toNat
  n == 0x20 || (0x9 ≤ n && n ≤ 0xd) || n == 0xa0 || n == 0x1680
    || (0x2000 ≤ n && n ≤ 0x200a) || n == 0x202f || n == 0x205f || n == 0x3000

/-- The characters that `hspace` skips. -/
def isHSpace (c : Char) : Bool := isSpace c && c != '\n' && c != '\r'

def docCommentPrefixPre : Char := '|'

def docCommentPrefixPost : Char := '<'

/-- `manyTill (nested <|> anySingle) (string stop)`, the text behind a `start`.  The
    fuel bounds the characters read. -/
def skipToStop (start stop : List Char) : Nat → List Char → Option (List Char)
  | 0, _ => none
  | fuel + 1, s =>
    match s.dropPrefix? stop with
    | some rest => some rest
    | none =>
      match s.dropPrefix? start with
      | some inner => (skipToStop start stop fuel inner).bind (skipToStop start stop fuel)
      | none =>
        match s with
        | [] => none
        | _ :: rest => skipToStop start stop fuel rest

/-- What is left behind a `start` that has been read: nothing can be tried instead. -/
def committed : Option (List Char) → Reply Unit
  | some rest => .ok () rest
  | none => .consumed

/-- `L.skipBlockCommentNested`. -/
def skipBlockCommentNested (start stop : List Char) (s : List Char) : Reply Unit :=
  match s.dropPrefix? start with
  | none => .empty
  | some inner => committed (skipToStop start stop (inner.length + 1) inner)

/-- `string prefix`, and with `parseDocs` `startNonDocComment`, which leaves the
    documentation comments alone. -/
def startComment (parseDocs : Bool) (pre s : List Char) : Option (List Char) :=
  match s.dropPrefix? pre with
  | none => none
  | some rest =>
    if parseDocs then
      let text := rest.dropWhile isHSpace
      if text.head? = some docCommentPrefixPre ∨ text.head? = some docCommentPrefixPost then
        none
      else some text
    else some rest

/-- `space1`. -/
def space1 (s : List Char) : Reply Unit :=
  match s with
  | [] => .empty
  | c :: rest => if isSpace c then .ok () (rest.dropWhile isSpace) else .empty

/-- `L.skipLineComment "//"` and `skipNonDocLineComment "//"`. -/
def lineCmnt (parseDocs : Bool) (s : List Char) : Reply Unit :=
  match startComment parseDocs ['/', '/'] s with
  | none => .empty
  | some text => .ok () (text.dropWhile (· != '\n'))

/-- `L.skipBlockCommentNested "/*" "*/"` and `skipNonDocBlockCommentNested "/*" "*/"`. -/
def blockCmnt (parseDocs : Bool) (s : List Char) : Reply Unit :=
  match startComment parseDocs ['/', '*'] s with
  | none => .empty
  | some text => committed (skipToStop ['/', '*'] ['*', '/'] (text.length + 1) text)

/-- `p <|> q`. -/
def Reply.orElse {α : Type} : Reply α → Reply α → Reply α
  | .empty, q => q
  | p, _ => p

/-- One alternative of `L.space`. -/
def whitespaceItem (parseDocs : Bool) (s : List Char) : Reply Unit :=
  ((space1 s).orElse (lineCmnt parseDocs s)).orElse (blockCmnt parseDocs s)

def skipWhitespace (parseDocs : Bool) : Nat → List Char → Reply Unit
  | 0, _ => .consumed
  | fuel + 1, s =>
    match whitespaceItem parseDocs s with
    | .ok _ rest => skipWhitespace parseDocs fuel rest
    | .empty => .ok () s
    | .consumed => .consumed

/-- `whitespace`; it fails only in a comment without an end. -/
def whitespace (parseDocs : Bool) (s : List Char) : Reply Unit :=
  skipWhitespace parseDocs (s.length + 1) s

/-! ## Lexemes -/

/-- `p >>= f`, where a failure of `f` counts as one of the whole once `p` has read. -/
def Reply.andThen {α β : Type} (p : Reply α) (f : α → List Char → Reply β) : Reply β :=
  match p with
  | .ok a rest =>
    match f a rest with
    | .ok b rest' => .ok b rest'
    | _ => .consumed
  | .empty => .empty
  | .consumed => .consumed

/-- `lexeme`: what was read and the white space behind it. -/
def lexeme {α : Type} (parseDocs : Bool) (p : Reply α) : Reply α :=
  p.andThen (fun a rest => (whitespace parseDocs rest).andThen (fun _ rest' => .ok a rest'))

/-- `symbol str`. -/
def symbol (parseDocs : Bool) (str s : List Char) : Reply Unit :=
  lexeme parseDocs
    (match s.dropPrefix? str with
    | some rest => .ok () rest
    | none => .empty)

/-- `skipBraces`. -/
def skipBraces (parseDocs : Bool) (s : List Char) : Reply Unit :=
  lexeme parseDocs (skipBlockCommentNested ['\x7b'] ['\x7d'] s)

/-! ## Items in braces -/

/-- The parser of an item.  It runs in a state, what has been declared so far, and
    reads at least one character. -/
structure Item (σ α : Type) where
  parse : σ → List Char → Reply (α × σ)
  reads : ∀ {st s a rest}, parse st s = .ok a rest → rest <:+ s ∧ rest.length < s.length

variable {σ α : Type}

/-- `many item`: it stops where an item fails without reading. -/
def manyItems (item : Item σ α) : Nat → σ → List Char → Reply (List α × σ)
  | 0, _, _ => .consumed
  | fuel + 1, st, s =>
    match item.parse st s with
    | .ok (a, st') rest =>
      match manyItems item fuel st' rest with
      | .ok (as, st'') rest' => .ok (a :: as, st'') rest'
      | _ => .consumed
    | .empty => .ok ([], st) s
    | .consumed => .consumed

def Item.many (item : Item σ α) (st : σ) (s : List Char) : Reply (List α × σ) :=
  manyItems item (s.length + 1) st s

/-- `braces`: a parser between the two brace symbols. -/
def braces {β : Type} (parseDocs : Bool) (p : List Char → Reply β) (s : List Char) : Reply β :=
  (symbol parseDocs ['\x7b'] s).andThen fun _ inner =>
    (p inner).andThen fun b rest =>
      (symbol parseDocs ['\x7d'] rest).andThen fun _ out => .ok b out

/-- The body of a function, `braces $ many statementOrDecl`. -/
def functionBody (parseDocs : Bool) (item : Item σ α) (st : σ) (s : List Char) : Reply Unit :=
  (braces parseDocs (item.many st) s).andThen fun _ out => .ok () out

end Kanagawa.Frontend.Lexer
