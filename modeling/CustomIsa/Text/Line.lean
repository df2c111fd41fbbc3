/-! # Blanks, pieces of text and lines

A blank is a character of the Unicode property `White_Space`. Lines, names and templates are cut
at blanks: a text is trimmed at both ends, split once at the first blank, or taken apart into its
words. All functions work on lists of characters, with wrappers on `String` where callers hold one.

A line ends at a line feed, which is no part of it, and neither is a carriage return right before
the line feed. -/
namespace CustomIsa.Text

/-- The 25 characters of the Unicode property `White_Space`. -/
def isBlank (c : Char) : Bool :=
  let n := c.toNat
  (0x09 ≤ n && n ≤ 0x0D) || n == 0x20 || n == 0x85 || n == 0xA0 || n == 0x1680 ||
    (0x2000 ≤ n && n ≤ 0x200A) || n == 0x2028 || n == 0x2029 || n == 0x202F || n == 0x205F ||
    n == 0x3000

/-- The text without the blanks at its two ends. -/
def trimChars (cs : List Char) : List Char :=
  ((cs.dropWhile isBlank).reverse.dropWhile isBlank).reverse

/-- `trimChars` on strings. -/
def trim (s : String) : String := String.ofList (trimChars s.toList)

/-- Whether a blank occurs anywhere in the text. -/
def hasBlank (s : String) : Bool := s.toList.any isBlank

/-- The text before and after the first character that satisfies `p`, which is dropped. -/
def splitFirst (p : Char → Bool) : List Char → Option (List Char × List Char)
  | [] => none
  | c :: cs => if p c then some ([], cs) else (splitFirst p cs).map fun (l, r) => (c :: l, r)

/-- The pieces between the characters that satisfy `p`; `n` of those make `n + 1` pieces. -/
def splitAll (p : Char → Bool) : List Char → List (List Char)
  | [] => [[]]
  | c :: cs =>
    if p c then [] :: splitAll p cs
    else
      match splitAll p cs with
      | [] => [[c]]
      | w :: ws => (c :: w) :: ws

/-- The maximal runs of characters that are not blank. -/
def words (cs : List Char) : List (List Char) := (splitAll isBlank cs).filter (· ≠ [])

/-- The rest of a text that starts with `stem`. -/
def dropStem? : List Char → List Char → Option (List Char)
  | [], cs => some cs
  | _ :: _, [] => none
  | s :: stem, c :: cs => if s = c then dropStem? stem cs else none

/-- The text followed by as many spaces as it lacks to `width` characters. -/
def padRight (width : Nat) (s : String) : String :=
  s ++ String.ofList (List.replicate (width - s.length) ' ')

/-- The text preceded by as many spaces as it lacks to `width` characters. -/
def padLeft (width : Nat) (s : String) : String :=
  String.ofList (List.replicate (width - s.length) ' ') ++ s

/-- Splitting always leaves at least one piece. -/
theorem splitAll_ne_nil (p : Char → Bool) (cs : List Char) : splitAll p cs ≠ [] := by
  cases cs with
  | nil => simp [splitAll]
  | cons c cs =>
    rw [splitAll]
    split
    · simp
    · split <;> simp

/-- The text without the carriage return at its end, if it has one. -/
def dropReturn : List Char → List Char
  | [] => []
  | [c] => if c = '\r' then [] else [c]
  | c :: d :: cs => c :: dropReturn (d :: cs)

/-- The lines of a text that a line feed follows. -/
def lines (s : String) : List String :=
  (splitAll (· = '\n') s.toList).map fun cs => String.ofList (dropReturn cs)

end CustomIsa.Text
