import CssExtract.Proofs.HeadAgreement
import CssExtract.Proofs.HeadOutline
import CssExtract.Proofs.SpacedComments

namespace CssExtract.Script

open Text

variable {a b r s w : List Char} {c d q : Char} {F : List Frame} {i n depth pending : Nat}

def Frame.harmless (depth : Nat) (text : List Char) : Frame → Bool
  | .lineComment | .blockComment _ => 2 ≤ depth && decide (Legible text)
  | .template => terminal? text = some (.template, text.length) && spaced text = text
  | _ => true

/-- Every comment stands inside the brackets of an argument, outside of templates, and is legible. -/
def commentsNested : Nat → Nat → List Char → Bool
  | _, _, [] => true
  | depth, pending + 1, _ :: s => commentsNested depth pending s
  | depth, 0, c :: s =>
    match opens? 0 c s.head? with
    | none => commentsNested (bracketed depth c) 0 s
    | some _ =>
      match part? (c :: s) with
      | none => false
      | some (frame, n) => frame.harmless depth ((c :: s).take n) && commentsNested depth (n - 1) s
termination_by structural _ _ s => s

theorem commentsNested_pending (pending : Nat) :
    commentsNested depth pending s = commentsNested depth 0 (s.drop pending) := by
  induction pending generalizing s with
  | zero => rfl
  | succ pending ih =>
      cases s with
      | nil => simp [commentsNested]
      | cons c s => rw [commentsNested, ih, List.drop_succ_cons]

theorem commentsNested_code (hopens : opens? 0 c s.head? = none) :
    commentsNested depth 0 (c :: s) = commentsNested (bracketed depth c) 0 s := by
  rw [commentsNested, hopens]

inductive Harmless (depth : Nat) (r : List Char) : List Char → Prop
  | string {q : Char} {b : List Char} (hq : isQuote q = true)
      (h : skip 1 [.string q] (b ++ r) = .ok (1 + b.length)) : Harmless depth r (q :: b)
  | template {b : List Char} (h : Closes .template b)
      (ht : terminal? ('`' :: b) = some (.template, b.length + 1)) (hsame : spaced ('`' :: b) = '`' :: b) :
      Harmless depth r ('`' :: b)
  | comment {c d : Char} {b : List Char} {f : Frame} (hopens : opens? 0 c (some d) = some (2, f))
      (hf : f.isComment = true) (h : skip 2 [f] (b ++ r) = .ok (2 + b.length)) (hdepth : 2 ≤ depth)
      (hx : Legible (c :: d :: b)) : Harmless depth r (c :: d :: b)

theorem exists_harmless {opening : Nat × Frame} (h : commentsNested depth 0 (c :: s) = true)
    (hopens : opens? 0 c s.head? = some opening) :
    ∃ a r, c :: s = a ++ r ∧ Harmless depth r a ∧ commentsNested depth 0 r = true := by
  rw [commentsNested, hopens] at h
  cases hpart : part? (c :: s) with
  | none => simp [hpart] at h
  | some found =>
      obtain ⟨frame, n⟩ := found
      simp only [hpart, Bool.and_eq_true, commentsNested_pending (n - 1)] at h
      obtain ⟨hharmless, hrest⟩ := h
      obtain ⟨width, hopens, hskip⟩ := part?_eq_some_iff.1 hpart
      have hlow := le_of_skip hskip
      have hhigh := le_add_length_of_skip hskip
      -- the text that is read once the part is open
      have cut {t : List Char} (hlow : width ≤ n) (hhigh : n ≤ width + t.length) :
          ∃ b r, t = b ++ r ∧ n = width + b.length :=
        ⟨t.take (n - width), t.drop (n - width), by simp, by simp; omega⟩
      -- a comment, whose second character is read with its first
      have comment {f : Frame} {d : Char} {t : List Char} (hf : f.isComment = true) (hs : s = d :: t)
          (hopens : opens? 0 c s.head? = some (2, f)) (hwidth : width = 2) (hframe : frame = f) :
          ∃ a r, c :: s = a ++ r ∧ Harmless depth r a ∧ commentsNested depth 0 r = true := by
        subst hs hwidth hframe
        obtain ⟨b, r, rfl, rfl⟩ := cut (t := t) hlow (by simpa using hhigh)
        rw [Nat.add_comm] at hharmless
        simp only [List.take_succ_cons, List.take_left] at hharmless
        have hnested : 2 ≤ depth ∧ Legible (c :: d :: b) := by
          cases frame <;> simp_all [Frame.harmless, Frame.isComment]
        refine ⟨c :: d :: b, r, rfl, .comment hopens hf (by simpa using hskip) hnested.1 hnested.2, ?_⟩
        rwa [show 2 + b.length - 1 = b.length + 1 by omega, List.drop_succ_cons, List.drop_left] at hrest
      cases opens?_eq_some_iff.1 hopens with
      | string hquote =>
          obtain ⟨b, r, rfl, rfl⟩ := cut hlow hhigh
          exact ⟨c :: b, r, rfl, .string (by simpa [isQuote] using hquote) hskip, by simpa using hrest⟩
      | template htick =>
          obtain ⟨b, r, rfl, rfl⟩ := cut hlow hhigh
          subst htick
          rw [Nat.add_comm, List.take_succ_cons, List.take_left] at hharmless
          simp only [Frame.harmless, Bool.and_eq_true, decide_eq_true_eq, List.length_cons] at hharmless
          exact ⟨'`' :: b, r, rfl, .template (closes_of_skip hskip (.inr (by simp))) hharmless.1 hharmless.2,
            by simpa using hrest⟩
      | lineComment _ hsecond | blockComment _ hsecond =>
          obtain ⟨t, ht⟩ := List.head?_eq_some_iff.1 hsecond
          exact comment rfl ht hopens rfl rfl

theorem opens?_of_ordinary (hc : isOrdinary c = true) (h : commentsNested depth 0 (c :: s) = true)
    (hslash : depth < 2 ∨ c ≠ '/') : opens? 0 c s.head? = none := by
  refine opens?_ordinary hc (fun hcomment => ?_) 0
  obtain rfl : c = '/' := by
    rcases hcomment with hcomment | hcomment <;> exact (List.cons_prefix_cons.1 hcomment).1.symm
  have hdepth := hslash.resolve_right (by simp)
  have hopens : opens? 0 '/' s.head? ≠ none := by
    rcases hcomment with ⟨t, ht⟩ | ⟨t, ht⟩ <;> obtain ⟨-, rfl⟩ := List.cons.inj ht <;> simp [opens?]
  obtain ⟨opening, hopening⟩ := Option.ne_none_iff_exists'.1 hopens
  obtain ⟨a, r, hs, hharmless, -⟩ := exists_harmless h hopening
  cases hharmless with
  | string hq =>
      obtain ⟨rfl, -⟩ := List.cons.inj hs
      simp [isQuote] at hq
  | template => simp at hs
  | comment _ _ _ hnested => omega

theorem bracketed_of_isOrdinary (hc : isOrdinary c = true) : bracketed depth c = depth := by
  simp [bracketed, not_bracket_of_isOrdinary hc]

theorem commentsNested_ordinary (hc : isOrdinary c = true) (hopens : opens? 0 c s.head? = none) :
    commentsNested depth 0 (c :: s) = commentsNested depth 0 s := by
  rw [commentsNested_code hopens, bracketed_of_isOrdinary hc]

theorem spaceComments_ordinary_cons (hc : isOrdinary c = true) (hopens : opens? 0 c s.head? = none)
    (closer : Char) (F : List Frame) :
    spaceComments (.group closer :: F) (c :: s) = c :: spaceComments (.group closer :: F) s :=
  spaceComments_char hopens (not_bracket_of_isOrdinary hc).1 (not_bracket_of_isOrdinary hc).2

theorem spaceComments_ordinary (ha : ∀ c ∈ a, isOrdinary c = true)
    (h : commentsNested depth 0 (a ++ r) = true) (hslash : depth < 2 ∨ '/' ∉ a) (closer : Char)
    (F : List Frame) :
    spaceComments (.group closer :: F) (a ++ r) = a ++ spaceComments (.group closer :: F) r ∧
      commentsNested depth 0 r = true := by
  induction a with
  | nil => exact ⟨rfl, h⟩
  | cons c a ih =>
      obtain ⟨hc, ha⟩ := List.forall_mem_cons.1 ha
      rw [List.cons_append] at h
      have hopens := opens?_of_ordinary hc h (hslash.imp_right fun hmem hslash => hmem (by simp [hslash]))
      rw [commentsNested_ordinary hc hopens] at h
      obtain ⟨hspaced, hrest⟩ := ih ha h (hslash.imp_right fun hmem hslash => hmem (by simp [hslash]))
      rw [List.cons_append, spaceComments_ordinary_cons hc hopens, hspaced]
      exact ⟨rfl, hrest⟩

theorem exists_spaceComments_cons (hc : isOrdinary c = false) (closer : Char) (F : List Frame)
    (s : List Char) :
    ∃ w, spaceComments (.group closer :: F) (c :: s) = c :: w := by
  by_cases hquote : isQuote c = true
  · exact ⟨_, spaceComments_opens (opens?_quote hquote 0 s.head?) rfl⟩
  by_cases htick : c = '`'
  · exact ⟨_, htick ▸ spaceComments_opens (opens?_tick 0 s.head?) rfl⟩
  cases hopener : closerOf? c with
  | some inner => exact ⟨_, spaceComments_opener hopener⟩
  | none =>
      cases hcloser : isCloser c with
      | true => exact ⟨_, spaceComments_closer hcloser⟩
      | false => simp [isOrdinary, hquote, htick, hopener, hcloser] at hc

theorem exists_front (h : commentsNested depth 0 s = true) (closer : Char) (F : List Frame) :
    spaceComments (.group closer :: F) s = s ∨ ∃ u y z w w', s = u ++ y :: w ∧
      spaceComments (.group closer :: F) s = u ++ z :: w' ∧ EndsWord y ∧ EndsWord z ∧
      (depth < 2 → isOperator y = false ∧ isOperator z = false) := by
  induction s with
  | nil => exact .inl rfl
  | cons c s ih =>
      cases hc : isOrdinary c with
      | false =>
          obtain ⟨w, hw⟩ := exists_spaceComments_cons hc closer F s
          have hoperator : isOperator c = false :=
            Bool.eq_false_iff.2 fun hoperator => by simp [isOrdinary_of_isOperator hoperator] at hc
          have hends := endsWord_of_not_ordinary hc
          exact .inr ⟨[], c, c, s, w, rfl, hw, hends, hends, fun _ => ⟨hoperator, hoperator⟩⟩
      | true =>
          cases hopens : opens? 0 c s.head? with
          | some opening =>
              obtain ⟨a, r, hs, hharmless, -⟩ := exists_harmless h hopens
              cases hharmless with
              | string hq =>
                  obtain ⟨rfl, -⟩ := List.cons.inj hs
                  simp [isOrdinary, hq] at hc
              | template =>
                  obtain ⟨rfl, -⟩ := List.cons.inj hs
                  simp [isOrdinary] at hc
              | @comment c d b f hopens hf hskip hdepth =>
                  obtain rfl : c = '/' := by
                    have := (opens?_cases hopens).1
                    cases f <;> simp_all [Frame.isComment, Frame.opening]
                  have hspace : EndsWord ' ' := ⟨by decide, by constructor <;> decide⟩
                  rw [hs]
                  exact .inr ⟨[], '/', ' ', _, _, rfl, spaceComments_comment hopens hf hskip, endsWord_slash,
                    hspace, by omega⟩
          | none =>
              rw [commentsNested_ordinary hc hopens] at h
              rw [spaceComments_ordinary_cons hc hopens]
              rcases ih h with hsame | ⟨u, y, z, w, w', hs, hspaced, hy, hz, hoperator⟩
              · exact .inl (by rw [hsame])
              · exact .inr ⟨c :: u, y, z, w, w', by rw [hs]; rfl, by rw [hspaced]; rfl, hy, hz, hoperator⟩

theorem terminal?_spaceComments (h : commentsNested depth 0 s = true) (hquote : isQuote c = false)
    (htick : c ≠ '`') (hc : depth < 2 ∨ isOperator c = false) (closer : Char) (F : List Frame) :
    terminal? (c :: spaceComments (.group closer :: F) s) = terminal? (c :: s) := by
  rcases exists_front h closer F with hsame | ⟨u, y, z, w, w', rfl, hspaced, hy, hz, hoperator⟩
  · rw [hsame]
  · rw [hspaced]
    refine terminal?_barrier hz hy (fun hop => ?_) hquote htick u w' w
    exact (hoperator (hc.resolve_right (by simp [hop]))).symm

/-- A space for each comment of the text changes nothing that is read of it. -/
def ReadAlike (s : List Char) : Prop :=
  ∀ (state : HeadState) (closer : Char) (closers : List Char), state.Proper →
    closers.length = state.depth → commentsNested state.depth 0 s = true →
      outlineFrom state.outline 0 (spaceComments (.group closer :: closers.map .group) s) =
        outlineFrom state.outline 0 s

variable {state state' : HeadState} {t : Terminal} {closer : Char} {closers : List Char} {token : Token}

theorem HeadState.Steps.depth_plain (h : state.Steps s token t state') (hproper : state.Proper)
    (hopen : t.closer? = none) (hclose : t.isCloser = false) : state'.depth = state.depth := by
  rw [(h.depth hproper).1]
  simp [depthAfter, hopen, hclose]

theorem outlineFrom_plain (hr : ReadAlike r) (hproper : state.Proper)
    (hlength : closers.length = state.depth) (h : commentsNested state.depth 0 r = true)
    (hgap : isGap c = false) (hopen : t.closer? = none) (hclose : t.isCloser = false)
    (hspaced : tokenAt state.inChain 0
      (c :: (a ++ spaceComments (.group closer :: closers.map .group) r)) = ⟨some t, c :: a, 0⟩)
    (htoken : tokenAt state.inChain 0 (c :: (a ++ r)) = ⟨some t, c :: a, 0⟩) :
    outlineFrom state.outline 0 (c :: (a ++ spaceComments (.group closer :: closers.map .group) r)) =
      outlineFrom state.outline 0 (c :: (a ++ r)) := by
  refine outlineFrom_same hgap hspaced htoken fun state' hsteps => ?_
  have hdepth := hsteps.depth_plain hproper hopen hclose
  exact hr state' closer closers (hsteps.proper hproper) (by rw [hdepth, hlength]) (by rw [hdepth, h])

/-- A string that the scanner steps over is of that length to the grammar, if it is one. -/
theorem eq_of_stringTail? (hq : isQuote q = true) (hskip : skip i [.string q] (b ++ r) = .ok (i + b.length))
    (h : stringTail? q b = some n) : n = b.length := by
  obtain ⟨a, ha, htext⟩ := stringText_of_stringTail? h
  have hread := htext.closes hq i (.string q) (b.drop n ++ r) rfl
  rw [← ha, ← List.append_assoc, List.take_append_drop, hskip] at hread
  have := Except.ok.inj hread
  rw [List.length_take, Nat.min_eq_left (stringTail?_le h)] at this
  omega

theorem plain_of_isQuote (hq : isQuote q = true) : isGap q = false ∧ q ≠ '.' := by
  simp only [isQuote, Bool.or_eq_true, decide_eq_true_eq] at hq
  rcases hq with rfl | rfl <;> decide

theorem Harmless.readAlike (ha : Harmless state.depth r a) (hr : ReadAlike r) (hproper : state.Proper)
    (hlength : closers.length = state.depth) (h : commentsNested state.depth 0 r = true) :
    outlineFrom state.outline 0 (spaceComments (.group closer :: closers.map .group) (a ++ r)) =
      outlineFrom state.outline 0 (a ++ r) := by
  cases ha with
  | @string q b hq hskip =>
      obtain ⟨hgap, hpoint⟩ := plain_of_isQuote hq
      have hsame := (stringTail?_of_skip hq hskip).2
      rw [List.cons_append, spaceComments_string hq hskip]
      cases htail : stringTail? q b with
      | none =>
          have hnone (x : List Char) : outlineFrom state.outline 0 (q :: (b ++ x)) = none :=
            outlineFrom_none hgap (.inr hpoint) (by rw [terminal?_quote hq, hsame, htail]; rfl)
          rw [hnone, hnone]
      | some n =>
          obtain rfl := eq_of_stringTail? hq hskip htail
          have htoken (x : List Char) : tokenAt state.inChain 0 (q :: (b ++ x)) = ⟨some .string, q :: b, 0⟩ :=
            tokenAt_of_terminal? (.inr hpoint) (by rw [terminal?_quote hq, hsame, htail]; rfl)
          exact outlineFrom_plain hr hproper hlength h hgap rfl rfl (htoken _) (htoken _)
  | @template b hclosed ht hspaced =>
      rw [terminal?_tick] at ht
      obtain ⟨k, hk, hsame⟩ := Option.map_eq_some_iff.1 ht
      obtain rfl : k = b.length := by simpa using hsame
      have htoken (x : List Char) : tokenAt state.inChain 0 ('`' :: (b ++ x)) = ⟨some .template, '`' :: b, 0⟩ :=
        tokenAt_of_terminal? (.inr (by decide)) (by rw [terminal?_tick, templateTail?_append hk]; rfl)
      have hbody : spaceComments [.template] b = b := by
        rw [spaced_template hclosed] at hspaced
        exact (List.cons.inj hspaced).2
      rw [List.cons_append, spaceComments_template hclosed, hbody]
      exact outlineFrom_plain hr hproper hlength h rfl rfl rfl (htoken _) (htoken _)
  | @comment c d b f hopens hf hskip hdepth hx =>
      rw [List.cons_append, List.cons_append, spaceComments_comment hopens hf hskip,
        outlineFrom_gap (by decide), hr state closer closers hproper hlength h]
      refine (outlineFrom_legible (r := r) ⟨hproper, hdepth⟩ hx fun hne z hz => ?_).symm
      have hpart : part? (c :: d :: b ++ r) = some (f, (c :: d :: b).length) :=
        part?_eq_some_iff.2 ⟨2, hopens, by simpa [Nat.add_comm 2] using hskip⟩
      rw [getLast?_of_part? hpart (.inr hne)] at hz
      obtain rfl := Option.some.inj hz
      cases f with
      | lineComment => exact .inr rfl
      | blockComment => exact .inl rfl
      | string | template | group => simp [Frame.isComment] at hf

theorem HeadState.Steps.depth_pos (h : state.Steps s token t state') (hclose : t.isCloser = true) :
    0 < state.depth := by
  cases h with
  | start ht | point _ ht | call _ ht | member _ ht => simp [ht, Terminal.isCloser] at hclose
  | last | empty | comma | group | item | opens | closes | inside => exact Nat.succ_pos _

theorem exists_bracket (hc : (closerOf? c).isSome ∨ isCloser c = true) :
    ∃ t, punctuation? c = some t ∧ t ≠ .dot := by
  have hmem := mem_of_bracket hc
  simp only [List.mem_cons, List.not_mem_nil, or_false] at hmem
  rcases hmem with rfl | rfl | rfl | rfl | rfl | rfl <;> exact ⟨_, rfl, by decide⟩

theorem ReadAlike.bracket (hs : ReadAlike s) (hc : (closerOf? c).isSome ∨ isCloser c = true) :
    ReadAlike (c :: s) := by
  intro state closer closers hproper hlength h
  rw [commentsNested_code (opens?_of_bracket hc 0 _).2] at h
  obtain ⟨t, ht, hdot⟩ := exists_bracket hc
  have hpoint : c ≠ '.' := by
    rintro rfl
    exact hdot (Option.some.inj ht).symm
  have hgap := (terminal?_bracket ht hdot s).1
  have htoken (x : List Char) : tokenAt state.inChain 0 (c :: ([] ++ x)) = ⟨some t, [c], 0⟩ :=
    tokenAt_of_terminal? (.inr hpoint) (terminal?_bracket ht hdot x).2
  rcases punctuation_cases ht with ⟨k, inner, hopen, hinner, -⟩ | ⟨hclose, hcloser, -⟩ | ⟨-, -, hordinary⟩
  · rw [spaceComments_opener hinner]
    refine outlineFrom_same hgap (htoken _) (htoken s) fun state' hsteps => ?_
    have hdepth : state'.depth = state.depth + 1 := by
      simp [(hsteps.depth hproper).1, depthAfter, hopen]
    refine hs state' inner (closer :: closers) (hsteps.proper hproper) (by simp [hdepth, hlength]) ?_
    simpa [bracketed, hinner, hdepth] using h
  · rw [spaceComments_closer hcloser]
    split_ifs with hsame
    · refine outlineFrom_same hgap (htoken _) (htoken s) fun state' hsteps => ?_
      have hpos := hsteps.depth_pos hclose
      have hdepth : state'.depth = state.depth - 1 := by
        simp [(hsteps.depth hproper).1, depthAfter, hclose, Terminal.closer?_of_isCloser hclose]
      obtain ⟨closer, closers, rfl⟩ : ∃ closer rest, closers = closer :: rest :=
        List.exists_cons_of_length_pos (hlength ▸ hpos)
      refine hs state' closer closers (hsteps.proper hproper) (by simp [hdepth, ← hlength]) ?_
      simpa [bracketed, closerOf?_of_isCloser hcloser, hcloser, hdepth] using h
    · rfl
  · simp [not_bracket_of_isOrdinary hordinary] at hc

theorem plain_of_terminal? (hc : isOrdinary c = true)
    (ht : terminal? (c :: (a ++ r)) = some (t, a.length + 1)) :
    (∀ x ∈ c :: a, isOrdinary x = true) ∧ (isOperator c = true ∨ '/' ∉ c :: a) ∧ t.closer? = none ∧
      t.isCloser = false := by
  generalize hn : a.length + 1 = n at ht
  cases starts_of_terminal? ht with
  | string hquote => simp [isOrdinary, hquote] at hc
  | template htick => simp [isOrdinary, htick] at hc
  | punctuation h =>
      obtain rfl : a = [] := by simpa using hn
      have hother : c ≠ '/' := by
        rintro rfl
        simp [punctuation?] at h
      rcases punctuation_cases h with ⟨k, inner, -, hinner, -⟩ | ⟨-, hcloser, -⟩ | ⟨hopen, hclose, -⟩
      · simp [isOrdinary, hinner] at hc
      · simp [isOrdinary, hcloser] at hc
      · exact ⟨by simpa using hc, .inr (by simpa using hother.symm), hopen, hclose⟩
  | word hword h =>
      rw [← hn, ← List.cons_append, ← List.length_cons, List.take_left] at h
      refine ⟨fun x hx => isOrdinary_of_not_endsWord (h x hx), .inr fun hmem => h _ hmem endsWord_slash, ?_⟩
      rcases hword with rfl | rfl <;> exact ⟨rfl, rfl⟩
  | operator hoperator h =>
      rw [← hn, ← List.cons_append, ← List.length_cons, List.take_left] at h
      refine ⟨fun x hx => isOrdinary_of_isOperator (h x hx), .inl (h c List.mem_cons_self), ?_⟩
      rcases hoperator with rfl | rfl <;> exact ⟨rfl, rfl⟩

theorem outlineFrom_spaced_token (hs : ∀ a r, s = a ++ r → ReadAlike r) (hc : isOrdinary c = true)
    (hopens : opens? 0 c s.head? = none) (hgap : isGap c = false) (hproper : state.Proper)
    (hlength : closers.length = state.depth) (h : commentsNested state.depth 0 (c :: s) = true)
    (hbelow : state.depth < 2 ∨ isOperator c = false) (hdue : state.inChain = false ∨ c ≠ '.') :
    outlineFrom state.outline 0 (spaceComments (.group closer :: closers.map .group) (c :: s)) =
      outlineFrom state.outline 0 (c :: s) := by
  have hs' : commentsNested state.depth 0 s = true := commentsNested_ordinary hc hopens ▸ h
  have hchar := spaceComments_ordinary_cons hc hopens closer (closers.map .group)
  have htick : c ≠ '`' := by
    rintro rfl
    simp [isOrdinary] at hc
  have hsame := terminal?_spaceComments hs' (isQuote_of_isOrdinary hc) htick hbelow closer (closers.map .group)
  rw [hchar]
  cases ht : terminal? (c :: s) with
  | none => rw [outlineFrom_none hgap hdue ht, outlineFrom_none hgap hdue (hsame.trans ht)]
  | some found =>
      obtain ⟨t, n⟩ := found
      obtain ⟨a, r, rfl, rfl⟩ := exists_cons_of_terminal? ht
      obtain ⟨ha, hslash, hopen, hclose⟩ := plain_of_terminal? hc ht
      have hdepth : state.depth < 2 ∨ '/' ∉ c :: a := by
        rcases hslash with hoperator | hslash
        · exact .inl (hbelow.resolve_right (by simp [hoperator]))
        · exact .inr hslash
      obtain ⟨hspaced, hr⟩ := spaceComments_ordinary ha h hdepth closer (closers.map .group)
      have hspaced := (List.cons.inj (hchar.symm.trans hspaced)).2
      rw [hspaced] at hsame ⊢
      exact outlineFrom_plain (hs a r rfl) hproper hlength hr hgap hopen hclose
        (tokenAt_of_terminal? hdue (hsame.trans ht)) (tokenAt_of_terminal? hdue ht)

theorem ReadAlike.ordinary (hs : ∀ a r, s = a ++ r → ReadAlike r) (hc : isOrdinary c = true)
    (hopens : opens? 0 c s.head? = none) : ReadAlike (c :: s) := by
  intro state closer closers hproper hlength h
  have hs' : commentsNested state.depth 0 s = true := commentsNested_ordinary hc hopens ▸ h
  have hchar := spaceComments_ordinary_cons hc hopens closer (closers.map .group)
  have hrest := hs [] s rfl state closer closers hproper hlength hs'
  cases hgap : isGap c with
  | true => rw [hchar, outlineFrom_gap hgap, outlineFrom_gap hgap, hrest]
  | false =>
      by_cases hnested : 2 ≤ state.depth ∧ isOperator c = true
      · -- a comment may begin behind the operator, which then is longer than in the spaced text
        have hoperator : ∀ d ∈ [c], isOperator d = true := by simpa using hnested.2
        have hread (x : List Char) : outlineFrom state.outline 0 (c :: x) = outlineFrom state.outline 0 x :=
          outlineFrom_operators ⟨hproper, hnested.1⟩ hoperator x
        rw [hchar, hread, hread, hrest]
      by_cases hpoint : state.inChain = true ∧ c = '.'
      · obtain ⟨hchain, rfl⟩ := hpoint
        have htoken (x : List Char) : tokenAt state.inChain 0 ('.' :: ([] ++ x)) = ⟨some .dot, ['.'], 0⟩ := by
          simp [tokenAt, hchain]
        rw [hchar]
        exact outlineFrom_plain (hs [] s rfl) hproper hlength hs' hgap rfl rfl (htoken _) (htoken s)
      refine outlineFrom_spaced_token hs hc hopens hgap hproper hlength h ?_ ?_
      · by_cases hdepth : state.depth < 2
        · exact .inl hdepth
        · exact .inr (by simpa using fun hoperator => hnested ⟨by omega, hoperator⟩)
      · by_cases hchain : state.inChain = true
        · exact .inr fun hc => hpoint ⟨hchain, hc⟩
        · exact .inl (by simpa using hchain)

theorem Harmless.ne_nil (h : Harmless depth r a) : a ≠ [] := by
  cases h <;> simp

theorem readAlike (s : List Char) : ReadAlike s := by
  -- a part, a bracket or a token is left behind at a time
  induction hn : s.length using Nat.strongRecOn generalizing s with
  | _ n ih =>
    cases s with
    | nil =>
        intro state closer closers _ _ _
        rw [spaceComments_nil]
    | cons c s =>
        cases hopens : opens? 0 c s.head? with
        | some opening =>
            intro state closer closers hproper hlength h
            obtain ⟨a, r, hs, ha, hr⟩ := exists_harmless h hopens
            have hlt : r.length < n := by
              have := List.length_pos_iff.2 ha.ne_nil
              rw [← hn, hs, List.length_append]
              omega
            rw [hs]
            exact ha.readAlike (ih r.length hlt r rfl) hproper hlength hr
        | none =>
            cases hc : isOrdinary c with
            | true =>
                refine .ordinary (fun a r hs => ih r.length ?_ r rfl) hc hopens
                rw [← hn, hs, List.length_cons, List.length_append]
                omega
            | false =>
                refine .bracket (ih s.length (by simp [← hn]) s rfl) ?_
                by_contra hno
                simp only [not_or, Bool.not_eq_true, Option.isSome_eq_false_iff, Option.isNone_iff_eq_none] at hno
                simp [isOrdinary_of_opens? hopens hno.1 hno.2] at hc

/-- If every comment of a head stands inside the brackets of an argument and consists of tokens whose
brackets nest, a space in its place changes no more than the sources of arguments. -/
theorem nested_comments_immaterial {h : List Char} (hnested : commentsNested 0 0 h = true) :
    (readHeadText (spaced h)).toOption.map Head.unsourced = (readHeadText h).toOption.map .unsourced := by
  rw [toOption_readHeadText, toOption_readHeadText]
  exact readAlike h .start ')' [] trivial rfl hnested

def annotatedObject : List Char := "styled(f({ /* sizes [1, 2] */ a: 1 })).b".toList

theorem annotatedObject_readAlike : commentsNested 0 0 annotatedObject = true ∧
    spaced annotatedObject = "styled(f({   a: 1 })).b".toList ∧
    (readHeadText annotatedObject).toBool = true ∧
    (readHeadText (spaced annotatedObject)).toOption.map Head.unsourced =
      (readHeadText annotatedObject).toOption.map Head.unsourced := by
  have hnested : commentsNested 0 0 annotatedObject = true := by decide +kernel
  exact ⟨hnested, by decide +kernel, by decide +kernel, nested_comments_immaterial hnested⟩

def annotatedMember : List Char := "styled/* c */.div".toList

theorem annotatedMember_rejected :
    readSite? (tagged annotatedMember "margin: 0".toList) 0 "styled".length =
        .ok (some ⟨⟨0, 28⟩, "styled/* c */.div", some ⟨⟨17, 28⟩, "margin: 0", []⟩⟩) ∧
      (readHeadText annotatedMember).toOption.map Head.unsourced = none ∧
      (readHeadText (spaced annotatedMember)).toOption.map Head.unsourced =
        some ⟨"styled", [.member "div"]⟩ := by
  refine ⟨by decide +kernel, ?_, ?_⟩
  · rfl
  · rfl

end CssExtract.Script
