import CssExtract.Script.Skip.Lemmas
import Mathlib.Tactic.SplitIfs

namespace CssExtract.Script

def part? : List Char → Option (Frame × Nat)
  | [] => none
  | c :: s => do
    let (width, frame) ← opens? 0 c s.head?
    let stop ← (skip width [frame] (s.drop (width - 1))).toOption
    return (frame, stop)

def bracketed (depth : Nat) (c : Char) : Nat :=
  if (closerOf? c).isSome then depth + 1 else if isCloser c then depth - 1 else depth

/-- For each character of code the number of brackets that are open there. The next `hidden`
characters belong to a comment, string or template; one that is not closed hides all that follows. -/
def depthsFrom : Nat → Nat → List Char → List (Option Nat)
  | _, _, [] => []
  | hidden + 1, depth, _ :: s => none :: depthsFrom hidden depth s
  | 0, depth, c :: s =>
    match opens? 0 c s.head? with
    | some _ => none :: depthsFrom (((part? (c :: s)).map (·.2)).getD (s.length + 1) - 1) depth s
    | none => some depth :: depthsFrom 0 (bracketed depth c) s

/-- The number of brackets that are open at an offset, if code stands there. -/
def codeDepth? (s : List Char) (offset : Nat) : Option Nat := (depthsFrom 0 0 s)[offset]?.join

def Frame.closing : Frame → Char
  | .string quote => quote
  | .template => '`'
  | .lineComment => '\n'
  | .blockComment _ => '/'
  | .group closer => closer

variable {frame : Frame} {c : Char} {next : Option Char} {i j : Nat} {s : List Char}

theorem Frame.Moves.ends {width : Nat} {opened : List Frame} (h : Moves i c next frame width opened) :
    (opened = [] ∧ (width = 1 ∧ c = frame.closing ∨ width = 2 ∧ next = some frame.closing)) ∨
      ∃ upper, opened = upper ++ [frame] := by
  cases h with
  | stringEnd | groupEnd => exact .inl ⟨rfl, .inl ⟨rfl, rfl⟩⟩
  | templateEnd hend | lineEnd hend => exact .inl ⟨rfl, .inl ⟨rfl, hend⟩⟩
  | blockEnd _ hslash => exact .inl ⟨rfl, .inr ⟨rfl, hslash⟩⟩
  | templateHole | groupOpens | groupNested => exact .inr ⟨[_], rfl⟩
  | _ => exact .inr ⟨[], rfl⟩

theorem lt_of_skip {frames : List Frame} {cs : List Char}
    (h : skip i (frame :: frames) (c :: cs) = .ok j) : i < j := by
  obtain ⟨opened, -, hrest⟩ | ⟨opened, d, r, -, -, hrest⟩ := skip_cases h
  · exact le_of_skip hrest
  · exact Nat.lt_of_succ_lt (le_of_skip hrest)

theorem eq_lineComment_of_atEnd {upper : List Frame} (h : atEnd i (upper ++ [frame]) = .ok j) :
    frame = .lineComment := by
  rw [atEnd_append] at h
  obtain ⟨k, -, hlast⟩ := bind_eq_ok_iff.1 h
  cases frame with
  | lineComment => rfl
  | _ => simp [atEnd] at hlast

theorem getLast?_of_skip {upper : List Frame} (h : skip i (upper ++ [frame]) s = .ok j)
    (hend : frame ≠ .lineComment ∨ j < i + s.length) :
    (s.take (j - i)).getLast? = some frame.closing := by
  induction hn : s.length using Nat.strongRecOn generalizing s i upper with
  | _ n ih =>
    cases s with
    | nil =>
        rw [skip_nil] at h
        have hline := eq_lineComment_of_atEnd h
        have := eq_of_atEnd h
        simp only [List.length_nil] at hend
        rcases hend with hend | hend
        · exact absurd hline hend
        · omega
    | cons c s =>
        -- what is left after a step that leaves the bottom part open
        have later {a t : List Char} {upper : List Frame} (hs : c :: s = a ++ t) (hne : a ≠ [])
            (h : skip (i + a.length) (upper ++ [frame]) t = .ok j) :
            ((c :: s).take (j - i)).getLast? = some frame.closing := by
          rw [hs] at hend hn ⊢
          rw [List.length_append] at hend hn
          have hpos := List.length_pos_iff.2 hne
          have hle := le_of_skip h
          have hlast := ih t.length (by omega) h (hend.imp_right (by omega)) rfl
          obtain ⟨k, rfl⟩ : ∃ k, j = i + a.length + k := ⟨j - (i + a.length), by omega⟩
          rw [Nat.add_sub_cancel_left] at hlast
          rw [Nat.add_assoc, Nat.add_sub_cancel_left, List.take_length_add_append, List.getLast?_append,
            hlast, Option.some_or]
        cases upper with
        | cons f upper =>
            rw [List.cons_append] at h
            obtain ⟨opened, -, hrest⟩ | ⟨opened, d, r, rfl, -, hrest⟩ := skip_cases h
            · rw [← List.append_assoc] at hrest
              exact later (a := [c]) rfl (by simp) hrest
            · rw [← List.append_assoc] at hrest
              exact later (a := [c, d]) rfl (by simp) hrest
        | nil =>
            obtain ⟨opened, hmove, hrest⟩ | ⟨opened, d, r, rfl, hmove, hrest⟩ := skip_cases h
            · obtain ⟨rfl, ⟨-, hc⟩ | ⟨hwidth, -⟩⟩ | ⟨upper, rfl⟩ := hmove.ends
              · obtain rfl : i + 1 = j := by simpa [skip] using hrest
                simp [hc]
              · simp at hwidth
              · rw [List.append_nil] at hrest
                exact later (a := [c]) rfl (by simp) hrest
            · obtain ⟨rfl, ⟨hwidth, -⟩ | ⟨-, hd⟩⟩ | ⟨upper, rfl⟩ := hmove.ends
              · simp at hwidth
              · obtain rfl : i + 2 = j := by simpa [skip] using hrest
                simp [Option.some.inj hd]
              · rw [List.append_nil] at hrest
                exact later (a := [c, d]) rfl (by simp) hrest

theorem part?_eq_some_iff {n : Nat} :
    part? (c :: s) = some (frame, n) ↔ ∃ width, opens? 0 c s.head? = some (width, frame) ∧
      skip width [frame] (s.drop (width - 1)) = .ok n := by
  simp only [part?, bind, Option.bind_eq_some_iff]
  constructor
  · rintro ⟨⟨width, frame'⟩, hopens, stop, hstop, hsame⟩
    obtain ⟨rfl, rfl⟩ := Prod.mk.inj (Option.some.inj hsame)
    refine ⟨width, hopens, ?_⟩
    cases hskip : skip width [frame'] (s.drop (width - 1)) <;> simp_all [Except.toOption]
  · rintro ⟨width, hopens, hskip⟩
    exact ⟨_, hopens, n, by simp [hskip, Except.toOption], rfl⟩

variable {a : List Char}

theorem exists_cons_of_part? (h : part? (a ++ s) = some (frame, a.length)) :
    ∃ body, a = frame.opening :: body := by
  cases a with
  | nil =>
      cases s with
      | nil => simp [part?] at h
      | cons c s =>
          obtain ⟨width, hopens, hskip⟩ := part?_eq_some_iff.1 h
          have := le_of_skip hskip
          have := (opens?_cases hopens).2
          simp only [List.length_nil] at *
          omega
  | cons c body =>
      obtain ⟨width, hopens, -⟩ := part?_eq_some_iff.1 h
      exact ⟨body, by rw [(opens?_cases hopens).1]⟩

theorem getLast?_of_part? (h : part? (a ++ s) = some (frame, a.length))
    (hend : frame ≠ .lineComment ∨ s ≠ []) : a.getLast? = some frame.closing := by
  obtain ⟨body, rfl⟩ := exists_cons_of_part? h
  rw [List.cons_append] at h
  obtain ⟨width, hopens, hskip⟩ := part?_eq_some_iff.1 h
  have hwidth := (opens?_cases hopens).2
  have hle := le_of_skip hskip
  have hread : skip width ([] ++ [frame]) ((body ++ s).drop (width - 1)) = .ok (frame.opening :: body).length :=
    hskip
  have hlast := getLast?_of_skip hread (hend.imp_right fun hs => by
    have := List.length_pos_iff.2 hs
    simp only [List.length_cons, List.length_drop, List.length_append] at hle ⊢
    omega)
  rcases hwidth with rfl | ⟨rfl, -⟩
  · simp only [Nat.sub_self, List.drop_zero, List.length_cons, Nat.add_sub_cancel,
      List.take_left] at hlast
    simp [List.getLast?_cons, hlast]
  · cases body with
    | nil => simp at hle
    | cons d body =>
        simp only [List.cons_append, List.drop_one, List.tail_cons, List.length_cons,
          show body.length + 1 + 1 - 2 = body.length by omega, List.take_left,
          Nat.add_one_sub_one] at hlast
        simp [List.getLast?_cons, hlast]

theorem depthsFrom_hidden (a s : List Char) (depth : Nat) :
    depthsFrom a.length depth (a ++ s) = List.replicate a.length none ++ depthsFrom 0 depth s := by
  induction a with
  | nil => rfl
  | cons c a ih => rw [List.length_cons, List.cons_append, depthsFrom, ih]; rfl

/-- All of a part is hidden, and what follows it is read as if it stood alone. -/
theorem depthsFrom_part (h : part? (a ++ s) = some (frame, a.length)) (depth : Nat) :
    depthsFrom 0 depth (a ++ s) = List.replicate a.length none ++ depthsFrom 0 depth s := by
  obtain ⟨body, rfl⟩ := exists_cons_of_part? h
  rw [List.cons_append] at h
  obtain ⟨width, hopens, -⟩ := part?_eq_some_iff.1 h
  rw [List.cons_append, depthsFrom, hopens, h]
  exact congrArg (none :: ·) (depthsFrom_hidden body s depth)

end CssExtract.Script
