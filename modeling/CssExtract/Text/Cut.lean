namespace CssExtract.Text

variable {α : Type}

def after? : List Char → List Char → Option (List Char)
  | [], s => some s
  | _ :: _, [] => none
  | p :: ps, c :: s => if p = c then after? ps s else none

def afterFirst? (separator : List Char) : List Char → Option (List Char)
  | [] => after? separator []
  | c :: s => (after? separator (c :: s)).or (afterFirst? separator s)

def splitOn (separator : Char) : List Char → List (List Char)
  | [] => [[]]
  | c :: s =>
    if c = separator then [] :: splitOn separator s
    else match splitOn separator s with
      | part :: parts => (c :: part) :: parts
      | [] => [[c]]

/-- The values of the leftmost matches that do not overlap. A recogniser is given the character
before the text and tells the value and the length of a match at its front; the next `pending`
characters are part of the last match. -/
def matchesFrom (recognise : Option Char → List Char → Option (α × Nat)) (previous : Option Char) :
    Nat → List Char → List α
  | _, [] => []
  | pending + 1, c :: s => matchesFrom recognise (some c) pending s
  | 0, c :: s =>
    match recognise previous (c :: s) with
    | some (a, length) => a :: matchesFrom recognise (some c) (length - 1) s
    | none => matchesFrom recognise (some c) 0 s

def allMatches (recognise : Option Char → List Char → Option (α × Nat)) (s : List Char) : List α :=
  matchesFrom recognise none 0 s

theorem after?_eq_some_iff {p s r : List Char} : after? p s = some r ↔ s = p ++ r := by
  induction p generalizing s with
  | nil => simp [after?, eq_comm]
  | cons x p ih =>
    cases s with
    | nil => simp [after?]
    | cons c s =>
      by_cases h : x = c
      · simp [after?, h, ih]
      · simp [after?, h, Ne.symm h]

theorem splitOn_ne_nil (x : Char) (s : List Char) : splitOn x s ≠ [] := by
  cases s with
  | nil => simp [splitOn]
  | cons c s =>
    by_cases h : c = x
    · simp [splitOn, h]
    · cases hs : splitOn x s <;> simp [splitOn, h, hs]

theorem splitOn_append (x : Char) (s r : List Char) :
    splitOn x (s ++ x :: r) = splitOn x s ++ splitOn x r := by
  induction s with
  | nil => simp [splitOn]
  | cons c s ih =>
      by_cases hc : c = x
      · simp [splitOn, hc, ih]
      · obtain ⟨part, parts, hs⟩ := List.exists_cons_of_ne_nil (splitOn_ne_nil x s)
        simp [splitOn, hc, ih, hs]

theorem splitOn_of_notMem {x : Char} {s : List Char} (h : x ∉ s) : splitOn x s = [s] := by
  induction s with
  | nil => rfl
  | cons c s ih =>
      rw [List.mem_cons, not_or] at h
      simp [splitOn, Ne.symm h.1, ih h.2]

end CssExtract.Text
