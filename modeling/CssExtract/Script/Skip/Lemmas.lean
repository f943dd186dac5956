import CssExtract.Script.Skip
import Mathlib.Tactic.SplitIfs

namespace CssExtract.Script

theorem atEnd_append (i : Nat) (upper lower : List Frame) :
    atEnd i (upper ++ lower) = (atEnd i upper).bind fun j => atEnd j lower := by
  induction upper with
  | nil => rfl
  | cons frame upper ih =>
    cases frame with
    | lineComment => exact ih
    | _ => rfl

theorem skip_nil (i : Nat) (frames : List Frame) : skip i frames [] = atEnd i frames := by
  cases frames <;> rfl

theorem skip_cons (i : Nat) (frame : Frame) (frames : List Frame) (c : Char) (cs : List Char) :
    skip i (frame :: frames) (c :: cs) =
      match frame.move i c cs.head? with
      | .error cause => .error ⟨cause, i⟩
      | .ok ⟨width, opened⟩ =>
        if width = 2 then skip (i + 2) (opened ++ frames) cs.tail
        else skip (i + 1) (opened ++ frames) cs := by
  rw [skip]
  cases frame.move i c cs.head? with
  | error cause => rfl
  | ok move =>
    obtain ⟨width, opened⟩ := move
    cases cs with
    | nil =>
      by_cases h : width = 2
      · subst h; simp [skip_nil]
      · simp [h]
    | cons d ds =>
      by_cases h : width = 2
      · subst h; simp
      · simp [h]

theorem eq_of_atEnd {i j : Nat} {frames : List Frame} (h : atEnd i frames = .ok j) : j = i := by
  induction frames with
  | nil => simpa [atEnd] using h.symm
  | cons frame frames ih => cases frame <;> simp_all [atEnd]

variable {frame f : Frame} {F opened : List Frame} {c d : Char} {next : Option Char} {s : List Char}
  {i j width : Nat}

/-- What opens at a character of plain source, and with how many characters. -/
inductive Frame.Opens (i : Nat) (c : Char) (next : Option Char) : Nat → Frame → Prop
  | string (quote : c = '\'' ∨ c = '"') : Opens i c next 1 (.string c)
  | template (tick : c = '`') : Opens i c next 1 .template
  | lineComment (first : c = '/') (second : next = some '/') : Opens i c next 2 .lineComment
  | blockComment (first : c = '/') (second : next = some '*') : Opens i c next 2 (.blockComment i)

theorem opens?_eq_some_iff : opens? i c next = some (width, frame) ↔ Frame.Opens i c next width frame := by
  constructor
  · intro h
    simp only [opens?] at h
    split_ifs at h with hquote htick hline hblock
    all_goals obtain ⟨rfl, rfl⟩ := Prod.mk.inj (Option.some.inj h)
    · exact .string (by simpa using hquote)
    · exact .template htick
    · simp only [Bool.and_eq_true, decide_eq_true_eq] at hline
      exact .lineComment hline.1 hline.2
    · simp only [Bool.and_eq_true, decide_eq_true_eq] at hblock
      exact .blockComment hblock.1 hblock.2
  · intro h
    cases h with
    | string hquote => simp [opens?, hquote]
    | template htick => simp [opens?, htick]
    | lineComment hfirst hsecond => simp [opens?, hfirst, hsecond]
    | blockComment hfirst hsecond => simp [opens?, hfirst, hsecond]

theorem opens?_eq_none_iff : opens? i c next = none ↔
    ¬ (c = '\'' ∨ c = '"') ∧ c ≠ '`' ∧ ¬ (c = '/' ∧ (next = some '/' ∨ next = some '*')) := by
  simp only [opens?]
  split_ifs with hquote htick hline hblock <;> simp_all

def Frame.opening : Frame → Char
  | .string quote => quote
  | .template => '`'
  | .lineComment | .blockComment _ => '/'
  | .group _ => '('

theorem opens?_cases (h : opens? i c next = some (width, frame)) :
    c = frame.opening ∧ (width = 1 ∨ width = 2 ∧ next.isSome) := by
  cases opens?_eq_some_iff.1 h with
  | string => exact ⟨rfl, .inl rfl⟩
  | template htick => exact ⟨htick, .inl rfl⟩
  | lineComment hfirst hsecond => exact ⟨hfirst, .inr ⟨rfl, by simp [hsecond]⟩⟩
  | blockComment hfirst hsecond => exact ⟨hfirst, .inr ⟨rfl, by simp [hsecond]⟩⟩

/-- What is read in an open part: how many characters, and the parts that take its place. -/
inductive Frame.Moves (i : Nat) (c : Char) (next : Option Char) : Frame → Nat → List Frame → Prop
  | stringEscape {q : Char} (escape : c = '\\') : Moves i c next (.string q) 2 [.string q]
  | stringEnd (escape : c ≠ '\\') : Moves i c next (.string c) 1 []
  | stringChar {q : Char} (quote : c ≠ q) (escape : c ≠ '\\') (line : c ≠ '\n') :
      Moves i c next (.string q) 1 [.string q]
  | templateEscape (escape : c = '\\') : Moves i c next .template 2 [.template]
  | templateEnd (tick : c = '`') : Moves i c next .template 1 []
  | templateHole (dollar : c = '$') (brace : next = some '{') :
      Moves i c next .template 2 [.group '}', .template]
  | templateChar (tick : c ≠ '`') (escape : c ≠ '\\') (hole : ¬ (c = '$' ∧ next = some '{')) :
      Moves i c next .template 1 [.template]
  | lineEnd (line : c = '\n') : Moves i c next .lineComment 1 []
  | lineChar (line : c ≠ '\n') : Moves i c next .lineComment 1 [.lineComment]
  | blockEnd {start : Nat} (star : c = '*') (slash : next = some '/') :
      Moves i c next (.blockComment start) 2 []
  | blockChar {start : Nat} (stays : ¬ (c = '*' ∧ next = some '/')) :
      Moves i c next (.blockComment start) 1 [.blockComment start]
  | groupOpens {closer : Char} {width : Nat} {inner : Frame} (opens : Opens i c next width inner) :
      Moves i c next (.group closer) width [inner, .group closer]
  | groupNested {closer inner : Char} (opener : closerOf? c = some inner) :
      Moves i c next (.group closer) 1 [.group inner, .group closer]
  | groupEnd (closer : isCloser c = true) : Moves i c next (.group c) 1 []
  | groupChar {closer : Char} (opens : opens? i c next = none) (opener : closerOf? c = none)
      (plain : isCloser c = false) : Moves i c next (.group closer) 1 [.group closer]

theorem Frame.Moves.of_move (h : f.move i c next = .ok ⟨width, opened⟩) : Moves i c next f width opened := by
  cases f with
  | string q =>
      simp only [move] at h
      split_ifs at h with hescape hquote hline
      all_goals obtain ⟨rfl, rfl⟩ := Move.mk.inj (Except.ok.inj h)
      · exact .stringEscape hescape
      · exact hquote ▸ .stringEnd hescape
      · exact .stringChar hquote hescape hline
  | template =>
      simp only [move] at h
      split_ifs at h with hescape htick hhole
      all_goals obtain ⟨rfl, rfl⟩ := Move.mk.inj (Except.ok.inj h)
      · exact .templateEscape hescape
      · exact .templateEnd htick
      · simp only [Bool.and_eq_true, decide_eq_true_eq] at hhole
        exact .templateHole hhole.1 hhole.2
      · exact .templateChar htick hescape (by simpa using hhole)
  | lineComment =>
      simp only [move] at h
      split_ifs at h with hline
      all_goals obtain ⟨rfl, rfl⟩ := Move.mk.inj (Except.ok.inj h)
      · exact .lineEnd hline
      · exact .lineChar hline
  | blockComment start =>
      simp only [move] at h
      split_ifs at h with hend
      all_goals obtain ⟨rfl, rfl⟩ := Move.mk.inj (Except.ok.inj h)
      · simp only [Bool.and_eq_true, decide_eq_true_eq] at hend
        exact .blockEnd hend.1 hend.2
      · exact .blockChar (by simpa using hend)
  | group closer =>
      simp only [move] at h
      split at h
      · rename_i hopens
        obtain ⟨rfl, rfl⟩ := Move.mk.inj (Except.ok.inj h)
        exact .groupOpens (opens?_eq_some_iff.1 hopens)
      · rename_i hopens
        split at h
        · rename_i hopener
          obtain ⟨rfl, rfl⟩ := Move.mk.inj (Except.ok.inj h)
          exact .groupNested hopener
        · rename_i hopener
          split_ifs at h with hplain hsame
          all_goals obtain ⟨rfl, rfl⟩ := Move.mk.inj (Except.ok.inj h)
          · exact .groupChar hopens hopener (by simpa using hplain)
          · exact hsame ▸ .groupEnd (by simpa using hplain)

theorem Frame.move_eq_ok_iff : f.move i c next = .ok ⟨width, opened⟩ ↔ Moves i c next f width opened := by
  refine ⟨.of_move, fun h => ?_⟩
  cases h with
  | groupOpens hopens => simp [move, opens?_eq_some_iff.2 hopens]
  | groupNested hopener =>
      have hopens : opens? i c next = none := by
        simp only [closerOf?] at hopener
        split at hopener <;> simp_all [opens?]
      simp [move, hopens, hopener]
  | groupEnd hcloser =>
      simp only [isCloser, Bool.or_eq_true, decide_eq_true_eq] at hcloser
      rcases hcloser with (rfl | rfl) | rfl <;> simp [move, opens?, closerOf?, isCloser]
  | _ => simp_all [move]

theorem atEnd_of_cut {k : Nat} (h : Frame.Moves i c none f 2 opened) :
    ∃ e, atEnd k (opened ++ F) = .error e := by
  cases h with
  | stringEscape | templateEscape => exact ⟨_, rfl⟩
  | templateHole _ hbrace => simp at hbrace
  | blockEnd _ hslash => simp at hslash
  | groupOpens hopens => cases hopens <;> simp_all

theorem Frame.Moves.width_cases (h : Moves i c next f width opened) : width = 1 ∨ width = 2 := by
  cases h with
  | groupOpens hopens => exact (opens?_cases (opens?_eq_some_iff.2 hopens)).2.imp_right (·.1)
  | stringEscape | templateEscape | templateHole | blockEnd => exact .inr rfl
  | _ => exact .inl rfl

theorem skip_move (hmove : Frame.Moves i c s.head? f 1 opened) :
    skip i (f :: F) (c :: s) = skip (i + 1) (opened ++ F) s := by
  rw [skip_cons, Frame.move_eq_ok_iff.2 hmove]
  rfl

theorem skip_move_two (hmove : Frame.Moves i c (some d) f 2 opened) :
    skip i (f :: F) (c :: d :: s) = skip (i + 2) (opened ++ F) s := by
  rw [skip_cons, List.head?_cons, Frame.move_eq_ok_iff.2 hmove]
  rfl

/-- Reading takes one character, or two that belong together. -/
theorem skip_cases (h : skip i (f :: F) (c :: s) = .ok j) :
    (∃ opened, Frame.Moves i c s.head? f 1 opened ∧ skip (i + 1) (opened ++ F) s = .ok j) ∨
      ∃ opened d r, s = d :: r ∧ Frame.Moves i c (some d) f 2 opened ∧
        skip (i + 2) (opened ++ F) r = .ok j := by
  rw [skip_cons] at h
  cases hok : f.move i c s.head? with
  | error cause => simp [hok] at h
  | ok move =>
      obtain ⟨width, opened⟩ := move
      have hmove := Frame.move_eq_ok_iff.1 hok
      simp only [hok] at h
      rcases hmove.width_cases with rfl | rfl
      · exact .inl ⟨opened, hmove, by simpa using h⟩
      · cases s with
        | nil =>
            rw [if_pos rfl, List.tail_nil, skip_nil] at h
            obtain ⟨e, he⟩ : ∃ e, atEnd (i + 2) (opened ++ F) = .error e := atEnd_of_cut hmove
            simp [he] at h
        | cons d r => exact .inr ⟨opened, d, r, rfl, hmove, by simpa using h⟩

theorem skip_bounds (h : skip i F s = .ok j) : i ≤ j ∧ j ≤ i + s.length := by
  induction hn : s.length using Nat.strongRecOn generalizing s i F with
  | _ n ih =>
    cases s with
    | nil =>
        rw [skip_nil] at h
        obtain rfl := eq_of_atEnd h
        omega
    | cons c s =>
        rw [List.length_cons] at hn
        cases F with
        | nil =>
            have : i = j := by simpa [skip] using h
            omega
        | cons f F =>
            obtain ⟨opened, -, hrest⟩ | ⟨opened, d, r, rfl, -, hrest⟩ := skip_cases h
            · have := ih s.length (by omega) hrest rfl
              omega
            · rw [List.length_cons] at hn
              have := ih r.length (by omega) hrest rfl
              omega

theorem le_of_skip (h : skip i F s = .ok j) : i ≤ j := (skip_bounds h).1

theorem le_add_length_of_skip (h : skip i F s = .ok j) : j ≤ i + s.length := (skip_bounds h).2

theorem skip_append (i : Nat) (upper lower : List Frame) (s : List Char) :
    skip i (upper ++ lower) s =
      (skip i upper s).bind fun j => skip j lower (s.drop (j - i)) := by
  induction hn : s.length using Nat.strongRecOn generalizing s i upper with
  | _ n ih =>
    cases upper with
    | nil => simp [skip, Except.bind]
    | cons frame upper =>
      cases s with
      | nil =>
        simp only [skip_nil, atEnd_append, List.drop_nil]
      | cons c cs =>
        rw [List.cons_append, skip_cons, skip_cons]
        cases frame.move i c cs.head? with
        | error cause => rfl
        | ok move =>
          obtain ⟨width, opened⟩ := move
          have hl : cs.length < n := by simp [← hn]
          by_cases hw : width = 2
          · simp only [hw, if_true, ← List.append_assoc]
            rw [ih _ (by simp; omega) _ _ _ rfl]
            cases h : skip (i + 2) (opened ++ upper) cs.tail with
            | error e => rfl
            | ok j =>
              have := le_of_skip h
              obtain ⟨k, rfl⟩ : ∃ k, j = i + 2 + k := ⟨j - (i + 2), by omega⟩
              simp [Except.bind, show i + 2 + k - i = k + 1 + 1 by omega, show i + 2 + k - (i+2) = k by omega]
          · simp only [hw, if_false, ← List.append_assoc]
            rw [ih _ hl _ _ _ rfl]
            cases h : skip (i + 1) (opened ++ upper) cs with
            | error e => rfl
            | ok j =>
              have := le_of_skip h
              obtain ⟨k, rfl⟩ : ∃ k, j = i + 1 + k := ⟨j - (i + 1), by omega⟩
              simp [Except.bind, show i + 1 + k - i = k + 1 by omega, show i + 1 + k - (i+1) = k by omega]

end CssExtract.Script
