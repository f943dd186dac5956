import CssExtract.Proofs.HeadText
import CssExtract.Proofs.TemplatePieces
import CssExtract.Styled.CallSite

namespace CssExtract.Script

open Text

inductive CutText : Frame → List Char → ScanCause → Prop
  | string {q : Char} {a : List Char} (h : StringText q a) :
      CutText (.string q) (a ++ ['\\']) .unterminatedString
  | template {a : List Char} (h : TemplateText a) : CutText .template (a ++ ['\\']) .unterminatedTemplate

inductive CutLiteral : List Char → ScanCause → Prop
  | string {q : Char} {s : List Char} {cause : ScanCause} (hq : isQuote q = true)
      (h : CutText (.string q) s cause) : CutLiteral (q :: s) cause
  | template {s : List Char} {cause : ScanCause} (h : CutText .template s cause) : CutLiteral ('`' :: s) cause

/-- The error is that of a literal that breaks off, and stands one character past the end of the text. -/
def BreaksOff (source : List Char) (e : ScanError) : Prop :=
  e.offset = source.length + 1 ∧ ∃ t, t <:+ source ∧ CutLiteral t e.cause

variable {source tag s t : List Char} {f g : Frame} {F opened : List Frame} {c d : Char} {next : Option Char}
  {i j k width pending : Nat} {e : ScanError} {cause : ScanCause}

theorem CutText.getLast? (h : CutText f s cause) : s.getLast? = some '\\' := by
  cases h with
  | string => exact List.getLast?_concat
  | template => exact List.getLast?_concat

theorem BreaksOff.getLast? (h : BreaksOff source e) : source.getLast? = some '\\' := by
  obtain ⟨-, t, ⟨before, rfl⟩, ht⟩ := h
  generalize e.cause = cause at ht
  cases ht with
  | string hq h => simp [List.getLast?_append, List.getLast?_cons, h.getLast?]
  | template h => simp [List.getLast?_append, List.getLast?_cons, h.getLast?]

theorem CutText.cons (hmove : Frame.Moves i c s.head? f 1 [f]) (h : CutText f s cause) :
    CutText f (c :: s) cause := by
  cases h with
  | @string q a h =>
      cases hmove with
      | stringChar hquote hescape hline => exact .string (.char hquote hescape hline h)
  | @template a h =>
      cases hmove with
      | templateChar htick hescape hhole =>
          refine .template (.char htick hescape (fun hopen => hhole ⟨hopen.1, ?_⟩) h)
          simp [List.head?_append, hopen.2]

theorem CutText.cons_cons (hmove : Frame.Moves i c (some d) f 2 [f]) (h : CutText f s cause) :
    CutText f (c :: d :: s) cause := by
  cases h with
  | @string q a h =>
      cases hmove with
      | stringEscape hescape => exact hescape ▸ .string (.escaped d h)
  | @template a h =>
      cases hmove with
      | templateEscape hescape => exact hescape ▸ .template (.escaped d h)

theorem CutText.hole (hmove : Frame.Moves i c (some d) f 2 [g, f]) (hskip : skip k [g] s = .ok j)
    (h : CutText f (s.drop (j - k)) cause) : CutText f (c :: d :: s) cause := by
  generalize hr : s.drop (j - k) = r at h
  cases h with
  | @string q a h => cases hmove
  | @template a h =>
      cases hmove with
      | templateHole hdollar hbrace =>
          obtain rfl := Option.some.inj hbrace
          obtain ⟨b, r, rfl, rfl, hb⟩ := completesAll_of_skip hskip (by simp)
          rw [Nat.add_sub_cancel_left, List.drop_left] at hr
          rw [hdollar, hr, ← List.append_assoc, ← List.cons_append, ← List.cons_append]
          exact .template (.hole ((isGroup_cons_iff rfl).2 (completesAll_singleton_iff.1 hb)) h)

theorem eq_group_of_move (hmove : Frame.Moves i c next f 1 [g, f]) : ∃ closer, f = .group closer := by
  cases hmove with
  | groupOpens | groupNested => exact ⟨_, rfl⟩

theorem CutText.literal_of_opens (hopens : Frame.Opens i c next width g) (h : CutText g s cause) :
    width = 1 ∧ CutLiteral (c :: s) cause := by
  cases hopens with
  | string hquote => exact ⟨rfl, .string (by simpa [isQuote] using hquote) h⟩
  | template htick => exact ⟨rfl, htick ▸ .template h⟩
  | lineComment | blockComment => cases h

theorem CutText.literal_of_move (hmove : Frame.Moves i c next f width [g, f]) (h : CutText g s cause) :
    width = 1 ∧ CutLiteral (c :: s) cause := by
  cases hmove with
  | groupOpens hopens => exact h.literal_of_opens hopens
  | groupNested | templateHole => cases h

theorem cutText_of_move (hmove : Frame.Moves i c none f 2 opened) (h : atEnd k opened = .error e) :
    e.offset = k ∧ CutText f [c] e.cause := by
  cases hmove with
  | stringEscape hescape =>
      obtain rfl := Except.error.inj h
      exact ⟨rfl, hescape ▸ .string .nil⟩
  | templateEscape hescape =>
      obtain rfl := Except.error.inj h
      exact ⟨rfl, hescape ▸ .template .nil⟩
  | templateHole _ hbrace => simp at hbrace
  | blockEnd _ hslash => simp at hslash
  | groupOpens hopens => cases hopens <;> simp_all

structure At (source : List Char) (i : Nat) (s : List Char) : Prop where
  suffix : s <:+ source
  length : i + s.length = source.length

theorem At.tail (h : At source i (c :: s)) : At source (i + 1) s where
  suffix := (List.suffix_cons c s).trans h.suffix
  length := by simpa [Nat.add_assoc, Nat.add_comm 1] using h.length

theorem At.le (h : At source i s) : i ≤ source.length := h.length ▸ Nat.le_add_right i s.length

theorem at_drop (h : i ≤ source.length) : At source i (source.drop i) where
  suffix := List.drop_suffix i source
  length := by simp only [List.length_drop]; omega

theorem At.after (h : At source i s) (hskip : skip i F s = .ok j) : At source j (s.drop (j - i)) where
  suffix := (List.drop_suffix _ s).trans h.suffix
  length := by
    have hlow := le_of_skip hskip
    have hhigh := le_add_length_of_skip hskip
    have hlength := h.length
    simp only [List.length_drop]
    omega

/-- An error that points to a character or the end of the text, or the one exception. -/
def Placed (source : List Char) (e : ScanError) : Prop := e.offset ≤ source.length ∨ BreaksOff source e

def Frame.Since (i : Nat) : Frame → Prop
  | .blockComment start => start ≤ i
  | _ => True

theorem Frame.Since.mono (h : f.Since i) (hij : i ≤ j) : f.Since j := by
  cases f with
  | blockComment start => exact Nat.le_trans h hij
  | _ => trivial

theorem offset_le_of_atEnd (hf : f.Since i) (h : atEnd i [f] = .error e) : e.offset ≤ i := by
  cases f with
  | lineComment => simp [atEnd] at h
  | blockComment start => exact Except.error.inj h ▸ hf
  | _ => exact Except.error.inj h ▸ Nat.le_refl i

theorem Frame.Opens.since (h : Opens i c next width f) : f.Since i := by
  cases h with
  | blockComment => exact Nat.le_refl i
  | _ => trivial

theorem Frame.Moves.frames (h : Moves i c next f width opened) :
    opened = [] ∨ opened = [f] ∨ ∃ g, g.Since i ∧ opened = [g, f] := by
  cases h with
  | groupOpens hopens => exact .inr (.inr ⟨_, hopens.since, rfl⟩)
  | groupNested | templateHole => exact .inr (.inr ⟨.group _, trivial, rfl⟩)
  | stringEnd | templateEnd | lineEnd | blockEnd | groupEnd => exact .inl rfl
  | _ => exact .inr (.inl rfl)

/-- An error is that of a character, that of the end after half an escape, or one further on. -/
theorem skip_error_cases (h : skip i [f] (c :: s) = .error e) :
    e.offset = i ∨
      (∃ opened, s = [] ∧ Frame.Moves i c none f 2 opened ∧ atEnd (i + 2) opened = .error e) ∨
      (∃ opened, Frame.Moves i c s.head? f 1 opened ∧ skip (i + 1) opened s = .error e) ∨
      ∃ opened d r, s = d :: r ∧ Frame.Moves i c (some d) f 2 opened ∧ skip (i + 2) opened r = .error e := by
  rw [skip_cons] at h
  cases hok : f.move i c s.head? with
  | error cause =>
      simp only [hok] at h
      exact .inl (Except.error.inj h ▸ rfl)
  | ok move =>
      obtain ⟨width, opened⟩ := move
      have hmove := Frame.move_eq_ok_iff.1 hok
      simp only [hok, List.append_nil] at h
      rcases hmove.width_cases with rfl | rfl
      · exact .inr (.inr (.inl ⟨opened, hmove, by simpa using h⟩))
      · cases s with
        | nil =>
            rw [if_pos rfl, List.tail_nil, skip_nil] at h
            exact .inr (.inl ⟨opened, rfl, hmove, h⟩)
        | cons d r => exact .inr (.inr (.inr ⟨opened, d, r, rfl, hmove, by simpa using h⟩))

/-- One part is read in another: the error is in the inner part, or in the outer one after it. -/
theorem skip_pair_cases (h : skip i [g, f] s = .error e) :
    skip i [g] s = .error e ∨ ∃ j, skip i [g] s = .ok j ∧ skip j [f] (s.drop (j - i)) = .error e := by
  rw [← List.singleton_append, skip_append] at h
  cases hg : skip i [g] s with
  | error e' => exact .inl (by simpa [hg, Except.bind] using h)
  | ok j => exact .inr ⟨j, rfl, by simpa [hg, Except.bind] using h⟩

/-- The error of an open part is in its place, or the part itself breaks off. -/
theorem placed_of_skip (hat : At source i s) (hf : f.Since i) (h : skip i [f] s = .error e) :
    Placed source e ∨ e.offset = source.length + 1 ∧ CutText f s e.cause := by
  -- on the length, since a step may read two characters
  induction hn : s.length using Nat.strongRecOn generalizing i f s with
  | _ n ih =>
    cases s with
    | nil =>
        rw [skip_nil] at h
        exact .inl (.inl ((offset_le_of_atEnd hf h).trans hat.le))
    | cons c s =>
        rw [List.length_cons] at hn
        have hlength : i + (s.length + 1) = source.length := hat.length
        obtain hoffset | ⟨opened, rfl, hmove, hrest⟩ | ⟨opened, hmove, hrest⟩ | ⟨opened, d, r, rfl, hmove, hrest⟩ :=
          skip_error_cases h
        · exact .inl (.inl (hoffset ▸ hat.le))
        · obtain ⟨hoffset, hcut⟩ := cutText_of_move hmove hrest
          exact .inr ⟨by simp at hlength; omega, hcut⟩
        · obtain rfl | rfl | ⟨g, hg, rfl⟩ := hmove.frames
          · simp [skip] at hrest
          · exact (ih s.length (by omega) hat.tail (hf.mono (Nat.le_succ i)) hrest rfl).imp_right
              (And.imp_right (.cons hmove))
          · obtain hinner | ⟨j, hinner, houter⟩ := skip_pair_cases hrest
            · obtain hplaced | ⟨hoffset, hcut⟩ := ih s.length (by omega) hat.tail (hg.mono (Nat.le_succ i)) hinner rfl
              · exact .inl hplaced
              · exact .inl (.inr ⟨hoffset, _, hat.suffix, (hcut.literal_of_move hmove).2⟩)
            · have hlow := le_of_skip hinner
              obtain hplaced | ⟨hoffset, hcut⟩ := ih _ (by simp only [List.length_drop]; omega)
                (hat.tail.after hinner) (hf.mono (by omega)) houter rfl
              · exact .inl hplaced
              · obtain ⟨closer, rfl⟩ := eq_group_of_move hmove
                cases hcut
        · rw [List.length_cons] at hn
          obtain rfl | rfl | ⟨g, hg, rfl⟩ := hmove.frames
          · simp [skip] at hrest
          · exact (ih r.length (by omega) hat.tail.tail (hf.mono (by omega)) hrest rfl).imp_right
              (And.imp_right (.cons_cons hmove))
          · obtain hinner | ⟨j, hinner, houter⟩ := skip_pair_cases hrest
            · obtain hplaced | ⟨-, hcut⟩ := ih r.length (by omega) hat.tail.tail (hg.mono (by omega)) hinner rfl
              · exact .inl hplaced
              · exact absurd (hcut.literal_of_move hmove).1 (by decide)
            · have hlow := le_of_skip hinner
              exact (ih _ (by simp only [List.length_drop]; omega) (hat.tail.tail.after hinner)
                (hf.mono (by omega)) houter rfl).imp_right (And.imp_right (.hole hmove hinner))

theorem At.inside (hat : At source i (c :: s)) (hopens : opens? i c s.head? = some (width, f)) :
    At source (i + width) (s.drop (width - 1)) := by
  rcases (opens?_cases hopens).2 with rfl | ⟨rfl, hnext⟩
  · exact hat.tail
  · obtain ⟨d, s, rfl⟩ : ∃ d r, s = d :: r := by cases s <;> simp_all
    exact hat.tail.tail

/-- Strings, templates and comments in plain source. -/
theorem placed_of_opens? (hat : At source i (c :: s)) (hopens : opens? i c s.head? = some (width, f))
    (h : skip (i + width) [f] (s.drop (width - 1)) = .error e) : Placed source e := by
  obtain hplaced | ⟨hoffset, hcut⟩ :=
    placed_of_skip (hat.inside hopens)
      ((opens?_eq_some_iff.1 hopens).since.mono (Nat.le_add_right i width)) h
  · exact hplaced
  · obtain ⟨rfl, hliteral⟩ := hcut.literal_of_opens (opens?_eq_some_iff.1 hopens)
    exact .inr ⟨hoffset, _, hat.suffix, hliteral⟩

theorem placed_of_group {closer : Char} (hat : At source i s) (h : skip i [.group closer] s = .error e) :
    Placed source e := by
  obtain hplaced | ⟨-, hcut⟩ := placed_of_skip (f := .group closer) hat trivial h
  · exact hplaced
  · cases hcut

/-- What is true of the errors of open parts and of a template that does not end. -/
structure HoldsOfErrors (source : List Char) (P : ScanError → Prop) : Prop where
  opened : ∀ {i width : Nat} {c : Char} {s : List Char} {f : Frame} {e : ScanError}, At source i (c :: s) →
    opens? i c s.head? = some (width, f) → skip (i + width) [f] (s.drop (width - 1)) = .error e → P e
  group : ∀ {i : Nat} {s : List Char} {closer : Char} {e : ScanError}, At source i s →
    skip i [.group closer] s = .error e → P e
  template : ∀ start ≤ source.length, P ⟨.unterminatedTemplate, start⟩

theorem holdsOfErrors_placed (source : List Char) : HoldsOfErrors source (Placed source) where
  opened := placed_of_opens?
  group := placed_of_group
  template _ hstart := .inl hstart

theorem cause_ne_of_atEnd (h : atEnd i F = .error e) : e.cause ≠ .endless := by
  induction F with
  | nil => simp [atEnd] at h
  | cons f F ih =>
      cases f with
      | lineComment => exact ih h
      | _ =>
          obtain rfl := Except.error.inj h
          simp

theorem cause_ne_of_move (h : f.move i c next = .error cause) : cause ≠ .endless := by
  cases f with
  | group closer =>
      simp only [Frame.move] at h
      split at h
      · simp at h
      · split at h
        · simp at h
        · split_ifs at h
          obtain rfl := Except.error.inj h
          simp
  | _ =>
      simp only [Frame.move] at h
      split_ifs at h
      try
        obtain rfl := Except.error.inj h
        simp

theorem cause_ne_of_skip (h : skip i F s = .error e) : e.cause ≠ .endless := by
  -- on the length, since a step may read two characters
  induction hn : s.length using Nat.strongRecOn generalizing i F s with
  | _ n ih =>
    cases F with
    | nil => simp [skip] at h
    | cons f F =>
        cases s with
        | nil => exact cause_ne_of_atEnd (skip_nil i _ ▸ h)
        | cons c s =>
            rw [List.length_cons] at hn
            rw [skip_cons] at h
            cases hok : f.move i c s.head? with
            | error cause =>
                simp only [hok] at h
                obtain rfl := Except.error.inj h
                exact cause_ne_of_move hok
            | ok move =>
                simp only [hok] at h
                split_ifs at h
                · exact ih s.tail.length (by simp only [List.length_tail]; omega) h rfl
                · exact ih s.length (by omega) h rfl

theorem holdsOfErrors_ne_endless (source : List Char) : HoldsOfErrors source (·.cause ≠ .endless) where
  opened _ _ := cause_ne_of_skip
  group _ := cause_ne_of_skip
  template _ _ := by simp

variable {P : ScanError → Prop}

theorem HoldsOfErrors.comment? (hP : HoldsOfErrors source P) (hat : At source i (c :: s)) (h : comment? i c s = some (.error e)) :
    P e := by
  obtain ⟨-, f, hopens, hskip⟩ := opens?_of_comment? h
  exact hP.opened hat hopens hskip

theorem HoldsOfErrors.skipBlanksFrom (hP : HoldsOfErrors source P) (hat : At source i s) (h : skipBlanksFrom i pending s = .error e) :
    P e := by
  induction s generalizing i pending with
  | nil => simp [skipBlanksFrom] at h
  | cons c s ih =>
      cases pending with
      | succ pending => exact ih hat.tail h
      | zero =>
          rw [skipBlanksFrom] at h
          split_ifs at h
          · exact ih hat.tail h
          · split at h
            · rename_i stop hcomment
              obtain rfl | ⟨stop, -, h⟩ := bind_eq_error_iff.1 h
              · exact hP.comment? hat hcomment
              · exact ih hat.tail h
            · simp at h

theorem HoldsOfErrors.readHead (hP : HoldsOfErrors source P) {head : HeadExtent} (hat : At source i s) (h : readHead i head pending s = .error e) :
    P e := by
  induction s generalizing i head pending with
  | nil => simp [readHead] at h
  | cons c s ih =>
      cases pending with
      | succ pending => exact ih hat.tail h
      | zero =>
          rw [readHead] at h
          split at h
          · exact ih hat.tail h
          split at h
          · rename_i stop hcomment
            obtain rfl | ⟨stop, -, h⟩ := bind_eq_error_iff.1 h
            · exact hP.comment? hat hcomment
            · exact ih hat.tail h
          split_ifs at h
          · obtain hname | ⟨name, -, h⟩ := bind_eq_error_iff.1 h
            · exact hP.skipBlanksFrom hat.tail hname
            · split at h
              · exact ih hat.tail h
              · simp at h
          · obtain hskip | ⟨stop, -, h⟩ := bind_eq_error_iff.1 h
            · exact hP.group hat.tail hskip
            · exact ih hat.tail h

theorem HoldsOfErrors.readPieces (hP : HoldsOfErrors source P) {start : Nat} (hstart : start ≤ source.length) (hat : At source i s)
    (h : readPieces start i pending s = .error e) : P e := by
  -- on the length, since an escape is read at once
  induction hn : s.length using Nat.strongRecOn generalizing i pending s with
  | _ n ih =>
    have hopen (hopen : Except.error ⟨.unterminatedTemplate, start⟩ = (.error e : Except ScanError Pieces)) :
        P e := Except.error.inj hopen ▸ hP.template start hstart
    cases s with
    | nil => exact hopen (by rwa [readPieces] at h)
    | cons c s =>
        rw [List.length_cons] at hn
        cases pending with
        | succ pending => exact ih s.length (by omega) hat.tail (by rwa [readPieces] at h) rfl
        | zero =>
            by_cases hescape : c = '\\'
            · subst hescape
              cases s with
              | nil => exact hopen (by rwa [readPieces] at h)
              | cons d s =>
                  rw [List.length_cons] at hn
                  rw [readPieces] at h
                  exact ih s.length (by omega) hat.tail.tail (map_eq_error_iff.1 h) rfl
            · rw [readPieces_cons hescape] at h
              split_ifs at h with htick hhole
              · rw [Bool.and_eq_true, decide_eq_true_eq, decide_eq_true_eq] at hhole
                obtain ⟨r, rfl⟩ := List.head?_eq_some_iff.1 hhole.2
                obtain hskip | ⟨stop, -, h⟩ := bind_eq_error_iff.1 h
                · exact hP.group hat.tail.tail hskip
                · obtain hrest | ⟨rest, -, h⟩ := bind_eq_error_iff.1 h
                  · exact ih _ (by omega) hat.tail hrest rfl
                  · simp at h
              · exact ih s.length (by omega) hat.tail (map_eq_error_iff.1 h) rfl

theorem HoldsOfErrors.readTemplate (hP : HoldsOfErrors source P) (hi : i < source.length) (h : readTemplate source i = .error e) :
    P e := by
  obtain hpieces | ⟨pieces, -, h⟩ := bind_eq_error_iff.1 h
  · exact hP.readPieces hi.le (at_drop hi) hpieces
  · simp at h

theorem HoldsOfErrors.readSite? (hP : HoldsOfErrors source P) (hi : i + width ≤ source.length) (h : readSite? source i width = .error e) :
    P e := by
  obtain hhead | ⟨⟨head, backtick⟩, hhead, h⟩ := bind_eq_error_iff.1 h
  · exact hP.readHead (at_drop hi) hhead
  · have hwithin := readHead_within hhead (Nat.le_refl _) (Nat.le_refl _) (Nat.le_add_right _ _)
    cases backtick with
    | none => simp at h
    | some tick =>
        have hbounds := hwithin.backtick tick rfl
        rw [(at_drop hi).length] at hbounds
        obtain htemplate | ⟨template, -, h⟩ := bind_eq_error_iff.1 h
        · exact hP.readTemplate hbounds.2 htemplate
        · simp at h

theorem HoldsOfErrors.sitesFrom (hP : HoldsOfErrors source P)
    (hendless : tag = [] → ∀ i ≤ source.length, P ⟨.endless, i⟩) {previous : Option Char} (hat : At source i s)
    (h : sitesFrom source tag i previous pending s = .error e) : P e := by
  induction s generalizing i previous pending with
  | nil => simp [sitesFrom] at h
  | cons c s ih =>
      cases pending with
      | succ pending => exact ih hat.tail h
      | zero =>
          rw [sitesFrom] at h
          split at h
          · rename_i hopens
            obtain hskip | ⟨stop, -, h⟩ := bind_eq_error_iff.1 h
            · exact hP.opened hat hopens hskip
            · exact ih hat.tail h
          split at h
          · rename_i hstart
            have hfits := startsTag_length hstart
            have hlength := hat.length
            obtain hsite | ⟨site, -, h⟩ := bind_eq_error_iff.1 h
            · exact hP.readSite? (by omega) hsite
            · cases site with
              | none =>
                  dsimp only at h
                  split_ifs at h with hempty
                  · obtain rfl := Except.error.inj h
                    exact hendless (List.isEmpty_iff.1 hempty) i (by omega)
                  · exact ih hat.tail h
              | some site =>
                  obtain hrest | ⟨rest, -, h⟩ := bind_eq_error_iff.1 h
                  · exact ih hat.tail hrest
                  · simp at h
          · exact ih hat.tail h

theorem findSites_ne_endless (htag : tag ≠ []) (h : findSites source tag = .error e) : e.cause ≠ .endless :=
  (holdsOfErrors_ne_endless source).sitesFrom (fun hempty => absurd hempty htag) (at_drop (Nat.zero_le _)) h

/-- The scanner steps over a part that begins at an offset, reads a template there, or looks for a tag. -/
inductive Scan
  | comment (i : Nat)
  | string (i : Nat)
  | template (i : Nat)
  | group (i : Nat)
  | read (i : Nat)
  | find (tag : List Char)

def Scan.Starts (source : List Char) : Scan → Prop
  | .comment i => OpensComment (source.drop i)
  | .string i => ∃ q ∈ source[i]?, isQuote q = true
  | .template i | .read i => source[i]? = some '`'
  | .group i => ∃ c ∈ source[i]?, (closerOf? c).isSome = true
  | .find _ => True

def Scan.Raises (source : List Char) (e : ScanError) : Scan → Prop
  | .comment i => skipComment source i = .error e
  | .string i => skipString? source i = some (.error e)
  | .template i => skipTemplate source i = .error e
  | .group i => skipGroup? source i = some (.error e)
  | .read i => readTemplate source i = .error e
  | .find tag => findSites source tag = .error e

theorem at_of_getElem? (h : source[i]? = some c) : At source i (c :: source.drop (i + 1)) :=
  drop_eq_cons h ▸ at_drop (List.getElem?_eq_some_iff.1 h).1.le

theorem placed_of_skipComment (hopens : OpensComment (source.drop i)) (h : skipComment source i = .error e) :
    Placed source e := by
  have hle : i ≤ source.length := by
    by_contra hlt
    rw [List.drop_eq_nil_of_le (by omega)] at hopens
    simp [OpensComment] at hopens
  obtain ⟨s, hs⟩ | ⟨s, hs⟩ := hopens
  all_goals
    have hat := at_drop hle
    rw [← hs] at hat
    rw [skipComment, ← hs] at h
    exact placed_of_opens? hat rfl h

theorem Scan.placed {op : Scan} (hop : op.Starts source) (h : op.Raises source e) :
    Placed source e := by
  cases op with
  | comment i => exact placed_of_skipComment hop h
  | string i =>
      obtain ⟨q, hq, hquote⟩ := hop
      simp only [Raises, skipString?, drop_eq_cons hq, Option.some.injEq] at h
      have hopens : opens? i q (source.drop (i + 1)).head? = some (1, .string q) := if_pos hquote
      exact placed_of_opens? (at_of_getElem? hq) hopens h
  | template i =>
      have hopens : opens? i '`' (source.drop (i + 1)).head? = some (1, .template) := rfl
      exact placed_of_opens? (at_of_getElem? hop) hopens h
  | group i =>
      obtain ⟨c, hc, hopener⟩ := hop
      obtain ⟨closer, hcloser⟩ := Option.isSome_iff_exists.1 hopener
      simp only [Raises, skipGroup?, drop_eq_cons hc, hcloser, Option.map_some, Option.some.injEq] at h
      exact placed_of_group (at_of_getElem? hc).tail h
  | read i => exact (holdsOfErrors_placed source).readTemplate (List.getElem?_eq_some_iff.1 hop).1 h
  | find tag => exact (holdsOfErrors_placed source).sitesFrom (fun _ _ hi => .inl hi) (at_drop (Nat.zero_le _)) h

end CssExtract.Script

namespace CssExtract.Styled

open Script Text

/-- An error of the scanner points to a character or to the end of the text, unless it tells of a literal that
breaks off in the middle of an escape. -/
theorem error_placed_iff {source : List Char} {op : Scan} {e : ScanError} (hop : op.Starts source)
    (h : op.Raises source e) :
    (∃ o ≤ source.length, (ParseError.ofScan source e).place = some (position source o)) ↔
      ¬ BreaksOff source e := by
  constructor
  · rintro ⟨o, ho, hplace⟩ ⟨hoffset, -⟩
    have hsame : e.offset = o := position_inj.1 (Option.some.inj hplace)
    omega
  · exact fun hwhole => ⟨e.offset, (Scan.placed hop h).resolve_right hwhole, rfl⟩

def openTemplate : List Char := "(`a$\x7b'b'\x7d\n".toList

def cutTemplate : List Char := "(`a$\x7b'b'\x7d\\".toList

theorem openTemplate_placed :
    (∃ o ≤ openTemplate.length, (ParseError.ofScan openTemplate ⟨.unterminatedTemplate, 10⟩).place =
      some (position openTemplate o)) ∧ BreaksOff cutTemplate ⟨.unterminatedTemplate, 11⟩ := by
  have hopen : (Scan.group 0).Starts openTemplate ∧
      skipGroup? openTemplate 0 = some (.error ⟨.unterminatedTemplate, 10⟩) :=
    ⟨⟨'(', by decide +kernel, rfl⟩, by decide +kernel⟩
  have hcut : (Scan.group 0).Starts cutTemplate ∧
      skipGroup? cutTemplate 0 = some (.error ⟨.unterminatedTemplate, 11⟩) :=
    ⟨⟨'(', by decide +kernel, rfl⟩, by decide +kernel⟩
  constructor
  · refine (error_placed_iff hopen.1 hopen.2).2 fun hbreaks => ?_
    exact absurd hbreaks.getLast? (by decide +kernel)
  · by_contra hwhole
    obtain ⟨o, ho, hplace⟩ := (error_placed_iff hcut.1 hcut.2).2 hwhole
    have hsame : 11 = o := position_inj.1 (Option.some.inj hplace)
    exact absurd (hsame ▸ ho) (by decide +kernel)

def cutString : List Char := ['\'', '\\']

theorem cutString_misplaced : ∃ e, (Scan.string 0).Starts cutString ∧ (Scan.string 0).Raises cutString e ∧
    (ParseError.ofScan cutString e).place = some ⟨1, 3⟩ ∧
    ¬ ∃ o ≤ cutString.length, (ParseError.ofScan cutString e).place = some (position cutString o) :=
  ⟨⟨.unterminatedString, 3⟩, ⟨'\'', rfl, rfl⟩, rfl, rfl, by decide⟩

end CssExtract.Styled
