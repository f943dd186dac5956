import CssExtract.Proofs.TokenKinds

namespace CssExtract.Script

open Text

variable {a b r s : List Char} {c d q : Char} {f : Frame} {F G opened : List Frame} {i : Nat}

def Frame.isComment : Frame → Bool
  | .lineComment | .blockComment _ => true
  | _ => false

def Frame.shown (frame : Frame) (opened : List Frame) (text : List Char) : List Char :=
  if frame.isComment then [] else if opened.head?.any Frame.isComment then [' '] else text

/-- The text with a space for each comment, where those parts are open. -/
def spaceComments : List Frame → List Char → List Char
  | [], s => s
  | _, [] => []
  | frame :: frames, c :: s =>
    match frame.move 0 c s.head? with
    | .error _ => c :: s
    | .ok ⟨width, opened⟩ =>
      match width, s with
      | 2, d :: s => frame.shown opened [c, d] ++ spaceComments (opened ++ frames) s
      | _, s => frame.shown opened [c] ++ spaceComments (opened ++ frames) s
termination_by structural _ s => s

def spaced (h : List Char) : List Char := spaceComments [.group ')'] h

@[simp] theorem spaceComments_nil (F : List Frame) : spaceComments F [] = [] := by
  cases F <;> rfl

theorem spaceComments_move (hmove : Frame.Moves 0 c s.head? f 1 opened) :
    spaceComments (f :: F) (c :: s) = f.shown opened [c] ++ spaceComments (opened ++ F) s := by
  rw [spaceComments, Frame.move_eq_ok_iff.2 hmove]
  rfl

theorem spaceComments_move_two (hmove : Frame.Moves 0 c (some d) f 2 opened) :
    spaceComments (f :: F) (c :: d :: s) = f.shown opened [c, d] ++ spaceComments (opened ++ F) s := by
  rw [spaceComments, List.head?_cons, Frame.move_eq_ok_iff.2 hmove]
  rfl

theorem spaceComments_error (cause : ScanCause) (hmove : f.move 0 c s.head? = .error cause) :
    spaceComments (f :: F) (c :: s) = c :: s := by
  rw [spaceComments, hmove]

theorem Frame.shown_text (hf : f.isComment = false) (hopened : opened.head?.any Frame.isComment = false)
    (text : List Char) : f.shown opened text = text := by
  simp [shown, hf, hopened]

/-- What follows a text that closes what is open is read as if it stood alone. -/
theorem spaceComments_append (h : skip i G (a ++ r) = .ok (i + a.length))
    (hkind : F.map Frame.kind = G.map Frame.kind) (l : List Frame) :
    spaceComments (F ++ l) (a ++ r) = spaceComments F a ++ spaceComments l r := by
  induction hn : a.length using Nat.strongRecOn generalizing i a F G with
  | _ n ih =>
    cases a with
    | nil =>
        cases r with
        | nil => simp
        | cons d r =>
            obtain rfl := eq_nil_of_skip_eq h (.inl (by simp))
            obtain rfl : F = [] := by simpa using hkind
            rfl
    | cons c a =>
        cases G with
        | nil => simp [skip] at h
        | cons g G =>
            obtain ⟨f, F, rfl⟩ : ∃ f F', F = f :: F' := by
              cases F with
              | nil => simp at hkind
              | cons f F => exact ⟨f, F, rfl⟩
            obtain ⟨hf, hF⟩ := List.cons.inj hkind
            rw [List.cons_append] at h ⊢
            obtain ⟨opened, hmove, hrest⟩ | ⟨opened, d, t, ht, hmove, hrest⟩ := skip_cases h
            · replace hrest : skip (i + 1) (opened ++ G) (a ++ r) = .ok (i + 1 + a.length) := by
                simpa [Nat.add_assoc, Nat.add_comm 1] using hrest
              -- the move is made with and without the text that follows
              obtain ⟨opened', hopened, hmove', hfirst⟩ : ∃ opened', opened'.map Frame.kind = opened.map Frame.kind ∧
                  Frame.Moves 0 c (a ++ r).head? f 1 opened' ∧ Frame.Moves 0 c a.head? f 1 opened' := by
                rcases eq_or_ne r [] with rfl | hr
                · obtain ⟨opened', hmove', hopened⟩ := hmove.shift hf 0
                  exact ⟨opened', hopened, hmove', by simpa using hmove'⟩
                · obtain ⟨opened', hopened, hmove'⟩ := hmove.before hf hrest (.inl hr) 0
                  exact ⟨opened', hopened, hmove' r, by simpa using hmove' []⟩
              rw [List.cons_append, spaceComments_move hmove', spaceComments_move hfirst, List.append_assoc,
                ← List.append_assoc opened', ih a.length (by simp [← hn]) hrest (by simp [hopened, hF]) rfl]
            · cases a with
              | nil =>
                  have := le_of_skip hrest
                  simp at this
              | cons e a =>
                  obtain ⟨rfl, rfl⟩ := List.cons.inj ht
                  replace hrest : skip (i + 2) (opened ++ G) (a ++ r) = .ok (i + 2 + a.length) := by
                    simpa [Nat.add_assoc, Nat.add_comm 2] using hrest
                  obtain ⟨opened', hmove', hopened⟩ := hmove.shift hf 0
                  have hlt : a.length < n := by
                    simp only [← hn, List.length_cons]
                    omega
                  rw [List.cons_append, List.cons_append, spaceComments_move_two hmove',
                    spaceComments_move_two hmove', List.append_assoc, ← List.append_assoc opened',
                    ih a.length hlt hrest (by simp [hopened, hF]) rfl]

section

variable {closer inner : Char}

theorem spaceComments_char (hopens : opens? 0 c s.head? = none) (hopener : closerOf? c = none)
    (hcloser : isCloser c = false) : spaceComments (.group closer :: F) (c :: s) =
      c :: spaceComments (.group closer :: F) s := by
  rw [spaceComments_move (.groupChar hopens hopener hcloser)]
  rfl

theorem spaceComments_opener (hopener : closerOf? c = some inner) :
    spaceComments (.group closer :: F) (c :: s) =
      c :: spaceComments (.group inner :: .group closer :: F) s := by
  rw [spaceComments_move (.groupNested hopener)]
  rfl

theorem spaceComments_closer (hcloser : isCloser c = true) :
    spaceComments (.group closer :: F) (c :: s) = c :: if c = closer then spaceComments F s else s := by
  have hopens := (opens?_of_bracket (c := c) (.inr hcloser) 0 s.head?).2
  have hopener := closerOf?_of_isCloser hcloser
  split_ifs with hc
  · subst hc
    rw [spaceComments_move (.groupEnd hcloser)]
    rfl
  · exact spaceComments_error (.wrongCloser c) (by simp [Frame.move, hopens, hopener, hcloser, hc])

theorem spaceComments_opens (hopens : opens? 0 c s.head? = some (1, f)) (hf : f.isComment = false) :
    spaceComments (.group closer :: F) (c :: s) = c :: spaceComments (f :: .group closer :: F) s := by
  rw [spaceComments_move (.groupOpens (opens?_eq_some_iff.1 hopens)),
    Frame.shown_text rfl (by simpa using hf)]
  rfl

theorem spaceComments_string_text (q : Char) (s : List Char) : spaceComments [.string q] s = s := by
  have hshown (text : List Char) : (Frame.string q).shown [.string q] text = text := Frame.shown_text rfl rfl text
  induction hn : s.length using Nat.strongRecOn generalizing s with
  | _ n ih =>
    cases s with
    | nil => rfl
    | cons c s =>
        by_cases hescape : c = '\\'
        · cases s with
          | nil => simp [spaceComments, Frame.move, hescape, hshown]
          | cons d s =>
              have hlt : s.length < n := by
                simp only [← hn, List.length_cons]
                omega
              rw [spaceComments_move_two (.stringEscape hescape)]
              simp [hshown, ih s.length hlt s rfl]
        by_cases hquote : c = q
        · subst hquote
          rw [spaceComments_move (.stringEnd hescape), Frame.shown_text rfl rfl]
          simp [spaceComments]
        by_cases hline : c = '\n'
        · exact spaceComments_error .unterminatedString (by
            rw [Frame.move, if_neg hescape, if_neg hquote, if_pos hline])
        · rw [spaceComments_move (.stringChar hquote hescape hline)]
          simp [hshown, ih s.length (by simp [← hn]) s rfl]

theorem spaceComments_string (hq : isQuote q = true) (h : skip i [.string q] (b ++ r) = .ok (i + b.length)) :
    spaceComments (.group closer :: F) (q :: (b ++ r)) = q :: (b ++ spaceComments (.group closer :: F) r) := by
  have hrest := spaceComments_append (F := [.string q]) h rfl (.group closer :: F)
  rw [spaceComments_string_text] at hrest
  rw [spaceComments_opens (opens?_quote hq _ _) rfl, ← hrest]
  rfl

theorem spaceComments_template (h : Closes .template b) (r : List Char) :
    spaceComments (.group closer :: F) ('`' :: (b ++ r)) =
      '`' :: (spaceComments [.template] b ++ spaceComments (.group closer :: F) r) := by
  rw [spaceComments_opens (opens?_tick _ _) rfl,
    ← spaceComments_append (F := [.template]) (h 0 .template r rfl) rfl (.group closer :: F)]
  rfl

theorem spaced_template (h : Closes .template b) : spaced ('`' :: b) = '`' :: spaceComments [.template] b := by
  simpa [spaced] using spaceComments_template h []

theorem spaceComments_comment_text (hf : f.isComment = true)
    (h : skip i [f] (b ++ r) = .ok (i + b.length)) : spaceComments [f] b = [] := by
  have hshown (opened : List Frame) (text : List Char) : f.shown opened text = [] := by
    simp [Frame.shown, hf]
  have hnil {i : Nat} {b : List Char} (h : skip i [] (b ++ r) = .ok (i + b.length)) : b = [] := by
    rw [skip] at h
    have := Except.ok.inj h
    exact List.eq_nil_of_length_eq_zero (by omega)
  induction b generalizing i with
  | nil => rfl
  | cons c b ih =>
      rw [List.cons_append] at h
      have hlength : i + (c :: b).length = i + 1 + b.length := by simp only [List.length_cons]; omega
      rw [hlength] at h
      obtain ⟨opened, hmove, hrest⟩ | ⟨opened, d, t, ht, hmove, hrest⟩ := skip_cases h
      · cases hmove with
        | lineEnd hline =>
            rw [spaceComments_move (.lineEnd hline), hshown, hnil hrest]
            rfl
        | lineChar hline =>
            rw [spaceComments_move (.lineChar hline), hshown]
            exact ih hrest
        | blockChar hstays =>
            have hgoes : ¬ (c = '*' ∧ b.head? = some '/') := fun hend =>
              hstays ⟨hend.1, by rw [List.head?_append, hend.2]; rfl⟩
            rw [spaceComments_move (.blockChar hgoes), hshown]
            exact ih hrest
        | _ => simp [Frame.isComment] at hf
      · cases hmove with
        | blockEnd hstar hslash =>
            obtain ⟨e, rfl⟩ : ∃ e, b = [e] := by
              rw [List.nil_append, skip] at hrest
              have := Except.ok.inj hrest
              exact List.length_eq_one_iff.1 (by omega)
            obtain ⟨rfl, -⟩ := List.cons.inj ht
            rw [spaceComments_move_two (.blockEnd hstar hslash), hshown]
            rfl
        | _ => simp [Frame.isComment] at hf

theorem spaceComments_comment (hopens : opens? 0 c (some d) = some (2, f)) (hf : f.isComment = true)
    (h : skip i [f] (b ++ r) = .ok (i + b.length)) :
    spaceComments (.group closer :: F) (c :: d :: (b ++ r)) = ' ' :: spaceComments (.group closer :: F) r := by
  have hrest := spaceComments_append (F := [f]) h rfl (.group closer :: F)
  rw [spaceComments_comment_text hf h] at hrest
  rw [spaceComments_move_two (.groupOpens (opens?_eq_some_iff.1 hopens))]
  have hshown : (Frame.group closer).shown [f, .group closer] [c, d] = [' '] := by
    rw [Frame.shown, List.head?_cons, Option.any_some, hf]
    rfl
  rw [hshown]
  exact congrArg (' ' :: ·) hrest

end

end CssExtract.Script
