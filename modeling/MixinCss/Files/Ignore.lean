/-
  MixinCss.Files.Ignore

  Lists of files to leave out, one pattern a line. A line becomes a regular
  expression on the path of a file; a later line may take back what an earlier
  one leaves out.
-/

import MixinCss.Text.Regex

namespace MixinCss

/-- A line of a list. A negated one takes a file back in. -/
structure IgnoreRule where
  negated : Bool
  expression : Regex
deriving Repr, Inhabited

namespace IgnoreRule

/-- Stands for a star of the regular expression while the stars of the line are
    replaced. -/
def starMark : Text := utf8 "#$~"

/-- Whether a slash that follows neither a slash nor a plus has `*.` somewhere
    behind it. `last` is the byte in front of the text. -/
def hasNestedWildcard (last : Option UInt8) : Text → Bool
  | [] => false
  | b :: rest =>
    let fits :=
      match last with
      | some c => b = ascii '/' && c ≠ ascii '/' && c ≠ ascii '+'
      | none => false
    (fits && Text.occursIn (utf8 "*.") rest) || hasNestedWildcard (some b) rest

/-- What the wildcards of a line become, in the order of replacement. -/
def replacements : List (Text × Text) := [
  (utf8 "/**/", utf8 "(/|/.+/)"),
  (utf8 "**/", utf8 "(|." ++ starMark ++ utf8 "/)"),
  (utf8 "/**", utf8 "(|/." ++ starMark ++ utf8 ")"),
  (utf8 "\\*", utf8 "\\" ++ starMark),
  (utf8 "*", utf8 "([^/]*)"),
  (utf8 "?", utf8 "\\?"),
  (starMark, utf8 "*")]

/-- The regular expression of a line. A pattern with a slash at its start is
    fixed to the top directory; any other one may match at every depth. All
    that is below a match matches too. -/
def expressionText (line : Text) : Text :=
  let rooted :=
    if hasNestedWildcard none line && !line.startsWith [ascii '/'] then ascii '/' :: line else line
  let dotted := Text.replace rooted (utf8 ".") (utf8 "\\.")
  let start := if dotted.startsWith (utf8 "/**/") then dotted.drop 1 else dotted
  let body := replacements.foldl (fun t r => Text.replace t r.1 r.2) start
  let whole := body ++ if Text.endsWith body [ascii '/'] then utf8 "(|.*)$" else utf8 "(|/.*)$"
  match whole with
  | b :: rest =>
    if b = ascii '/' then utf8 "^(|/)" ++ rest else utf8 "^(|.*/)" ++ whole
  | [] => utf8 "^(|.*/)"

/-- The rule of a line. Comments, empty lines and lines that make no regular
    expression have none. -/
def ofLine? (line : Text) : Option IgnoreRule :=
  let line := (line.reverse.dropWhile (· == ascii '\r')).reverse
  if Text.startsWith line [ascii '#'] then none
  else
    let line := Text.trimBytes (· == ascii ' ') line
    match line with
    | [] => none
    | b :: rest =>
      let negated := b = ascii '!'
      let pattern := if negated then rest else line
      let pattern :=
        match pattern with
        | c :: more => if c = ascii '#' || c = ascii '!' then more else pattern
        | [] => []
      (Regex.parse? (expressionText pattern)).map fun expression => ⟨negated, expression⟩

end IgnoreRule

/-- The rules of a list in order. -/
abbrev IgnoreList := List IgnoreRule

namespace IgnoreList

def ofText (t : Text) : IgnoreList := (Text.split (ascii '\n') t).filterMap IgnoreRule.ofLine?

/-- Whether a file is left out: the last rule that matches decides. -/
def ignores (rules : IgnoreList) (path : Text) : Bool :=
  rules.foldl (fun ignored rule =>
    if rule.expression.occursIn path then !rule.negated else ignored) false

end IgnoreList

end MixinCss
