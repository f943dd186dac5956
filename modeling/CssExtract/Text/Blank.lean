namespace CssExtract.Text

def isBlank (c : Char) : Bool :=
  let n := c.toNat
  (decide (9 ≤ n) && decide (n ≤ 13)) || (decide (28 ≤ n) && decide (n ≤ 32)) ||
    n == 0x85 || n == 0xA0 || n == 0x1680 || (decide (0x2000 ≤ n) && decide (n ≤ 0x200A)) ||
    n == 0x2028 || n == 0x2029 || n == 0x202F || n == 0x205F || n == 0x3000

def trimStart (s : List Char) : List Char := s.dropWhile isBlank

def trimEnd (s : List Char) : List Char := (s.reverse.dropWhile isBlank).reverse

def trim (s : List Char) : List Char := trimEnd (trimStart s)

/-- What is left after each number of leading blanks, most blanks first. -/
def pastBlanks : List Char → List (List Char)
  | [] => [[]]
  | c :: cs => if isBlank c then pastBlanks cs ++ [c :: cs] else [c :: cs]

def pastSomeBlanks : List Char → List (List Char)
  | [] => []
  | c :: cs => if isBlank c then pastBlanks cs else []

theorem trimStart_eq_self {c : Char} {s : List Char} (h : isBlank c = false) :
    trimStart (c :: s) = c :: s := by
  simp [trimStart, h]

end CssExtract.Text
