/-!
# Text as characters with byte lengths

Offsets into source text count UTF-8 bytes, while text is read character by
character. `byteLength` ties the two together; `splitAtByte` cuts a text at the
last character boundary that is not above an offset, and `slice?` cuts out a span
whose two ends both stand on boundaries.
-/

namespace PhaseLang.Text

def byteLength : List Char → Nat
  | [] => 0
  | c :: cs => c.utf8Size + byteLength cs

/-- Cuts before the first character that would pass byte `n`. -/
def splitAtByte : Nat → List Char → List Char × List Char
  | _, [] => ([], [])
  | n, c :: cs =>
    if c.utf8Size ≤ n then
      let (before, after) := splitAtByte (n - c.utf8Size) cs
      (c :: before, after)
    else ([], c :: cs)

/-- The first `n` bytes and the rest, when a character ends exactly there. -/
def cut? (n : Nat) (cs : List Char) : Option (List Char × List Char) :=
  let (before, after) := splitAtByte n cs
  if byteLength before = n then some (before, after) else none

/-- The text from byte `start` to byte `stop`, when both are boundaries in order. -/
def slice? (start stop : Nat) (cs : List Char) : Option (List Char) :=
  if start ≤ stop then do
    let (_, after) ← cut? start cs
    let (middle, _) ← cut? (stop - start) after
    return middle
  else none

/-- The characters of the Unicode property `White_Space`. -/
def isBlank (c : Char) : Bool :=
  let n := c.toNat
  (9 ≤ n && n ≤ 13) || n == 0x20 || n == 0x85 || n == 0xA0 || n == 0x1680 ||
    (0x2000 ≤ n && n ≤ 0x200A) || n == 0x2028 || n == 0x2029 || n == 0x202F || n == 0x205F ||
    n == 0x3000

def trimEnd (cs : List Char) : List Char := (cs.reverse.dropWhile isBlank).reverse

def lastLine (cs : List Char) : List Char := (cs.reverse.takeWhile (· ≠ '\n')).reverse

def fill (n : Nat) (c : Char) : String := String.ofList (List.replicate n c)

def alignRight (width : Nat) (s : String) : String := fill (width - s.length) ' ' ++ s

end PhaseLang.Text
